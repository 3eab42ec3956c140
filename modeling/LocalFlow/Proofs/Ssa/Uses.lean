import Mathlib
import LocalFlow.Proofs.Ssa.Chains
import LocalFlow.Proofs.Ssa.Descent

/-! Reads and what they see. A renaming comes to every reachable block once, so a read is listed
once, under the one definition that it sees, and a merge has one entry for each reachable
predecessor. -/

namespace LocalFlow

open LocalFlow.Graph Definition

namespace Definition

variable {fn : Function} {g : Graph Ref} {merges : Nat → Bool} {v b : Nat} {d : Definition}

theorem index_foldl_after (hd : d.index = v) (items : List Ref) :
    (items.foldl (after fn v) d).index = v := by
  induction items generalizing d with
  | nil => exact hd
  | cons r items ih =>
    refine ih ?_
    unfold after
    split
    · split
      · rfl
      · exact hd
    · exact hd

theorem index_enter (hd : d.index = v) : (enter merges v d b).index = v := by
  unfold enter
  split
  · rfl
  · exact hd

theorem index_across (hd : d.index = v) : (across fn g merges v d b).index = v :=
  index_foldl_after (index_enter hd) _

theorem index_initial (fn : Function) (v : Nat) : (initial fn v).index = v := by
  unfold initial
  split <;> rfl

end Definition

theorem Function.Inherits.index_eq {fn : Function} {g : Graph Ref} {t : DominatorTree}
    {merges : Nat → Bool} {v b : Nat} {d : Definition} (h : fn.Inherits g t merges v b d) :
    d.index = v := by
  induction h with
  | entry => exact index_initial fn v
  | child _ _ _ ih => exact index_across ih

theorem Phi.place_ascending {p : Nat} {d : Definition} {entries : List (Nat × Definition)}
    (h : entries.Pairwise (·.1 < ·.1)) : (place p d entries).Pairwise (·.1 < ·.1) := by
  induction entries with
  | nil => simp [place]
  | cons entry entries ih =>
    obtain ⟨hentry, hentries⟩ := List.pairwise_cons.mp h
    rw [place]
    split
    · rename_i hlt
      refine List.pairwise_cons.mpr ⟨fun x hx => ?_, h⟩
      rcases List.mem_cons.mp hx with rfl | hx
      · exact hlt
      · exact Nat.lt_trans hlt (hentry x hx)
    · split
      · rename_i heq
        exact List.pairwise_cons.mpr ⟨fun x hx => heq ▸ hentry x hx, hentries⟩
      · refine List.pairwise_cons.mpr ⟨fun x hx => ?_, ih hentries⟩
        have hplaced : (x.1, x.2) ∈ place p d entries := hx
        rcases mem_place hplaced with ⟨hp, -⟩ | hx
        · omega
        · exact hentry x hx

namespace Renaming

variable {s s' : Renaming} {fn : Function} {g : Graph Ref} {t : DominatorTree} {b c depth : Nat}
  {r : Ref}

def readsIn (fn : Function) (items : List Ref) : List Ref :=
  ((fn.accessesIn items).filter fun (_, n) => !n.kind.isLocalWrite).map (·.1)

theorem mem_readsIn {items : List Ref} :
    r ∈ readsIn fn items ↔ r ∈ items ∧ ∃ n, fn.node? r = some n ∧ n.kind = .localGet := by
  have hget : ∀ n : Node, n.kind = .localGet ↔
      n.kind.isLocalAccess = true ∧ n.kind.isLocalWrite = false := by
    intro n
    cases n.kind <;> simp [Kind.isLocalAccess, Kind.isLocalWrite]
  simp only [readsIn, List.mem_map, List.mem_filter, hget]
  constructor
  · rintro ⟨⟨r, n⟩, ⟨hmem, hread⟩, rfl⟩
    obtain ⟨hr, hn, haccess⟩ := Function.mem_accessesIn.mp hmem
    exact ⟨hr, n, hn, haccess, by simpa using hread⟩
  · rintro ⟨hr, n, hn, haccess, hread⟩
    exact ⟨(r, n), ⟨Function.mem_accessesIn.mpr ⟨hr, hn, haccess⟩, by simp [hread]⟩, rfl⟩

theorem readsIn_sublist (fn : Function) (items : List Ref) : (readsIn fn items).Sublist items := by
  have haccesses : ((fn.accessesIn items).map (·.1)).Sublist items := by
    induction items with
    | nil => exact .slnil
    | cons r items ih =>
      rw [Function.accessesIn, List.filterMap_cons]
      split
      · exact ih.cons r
      · rename_i x hx
        split at hx
        · split at hx
          · cases hx
            exact ih.cons_cons r
          · cases hx
        · cases hx
  exact (List.filter_sublist.map _).trans haccesses

/-- Every read was recorded in its turn by a visited block, and what a merge has received came over
an edge from a visited block. -/
structure Orderly (fn : Function) (g : Graph Ref) (s : Renaming) : Prop where
  reads : (s.reads.map (·.1)).Sublist (s.visited.flatMap fun b => (readsIn fn (g.items b)).reverse)
  edge : ∀ ⦃c phi p d⦄, phi ∈ s.phisAt c → (p, d) ∈ phi.incoming → p ∈ s.visited ∧ c ∈ g.succ p
  ascending : ∀ ⦃c phi⦄, phi ∈ s.phisAt c → phi.incoming.Pairwise (·.1 < ·.1)

namespace Orderly

theorem congr (h : s.Orderly fn g) (hvisited : s'.visited = s.visited) (hphis : s'.phis = s.phis)
    (hreads : s'.reads = s.reads) : s'.Orderly fn g := by
  have hat : ∀ c, s'.phisAt c = s.phisAt c := fun c => by rw [phisAt, hphis, phisAt]
  refine ⟨?_, fun c phi p d hphi hd => ?_, fun c phi hphi => h.ascending (hat c ▸ hphi)⟩
  · rw [hreads, hvisited]
    exact h.reads
  · rw [hvisited]
    exact h.edge (hat c ▸ hphi) hd

theorem feed (h : s.Orderly fn g) (hb : b ∈ s.visited) (hc : c ∈ g.succ b)
    (hok : feed b s c = .ok s') : s'.Orderly fn g := by
  obtain ⟨current, -, rfl⟩ := feed_eq_ok.mp hok
  have hat := phisAt_setIfInBounds s c (f := fun phi => phi.setIncoming b (current phi.index))
  refine ⟨h.reads, fun x phi p d hphi hd => ?_, fun x phi hphi => ?_⟩
  · rw [hat] at hphi
    split at hphi
    · rename_i hcx
      subst hcx
      obtain ⟨old, hold, rfl⟩ := List.mem_map.mp hphi
      rcases Phi.mem_place hd with ⟨rfl, -⟩ | hd
      · exact ⟨hb, hc⟩
      · exact h.edge hold hd
    · exact h.edge hphi hd
  · rw [hat] at hphi
    split at hphi
    · obtain ⟨old, hold, rfl⟩ := List.mem_map.mp hphi
      exact Phi.place_ascending (h.ascending hold)
    · exact h.ascending hphi

theorem feeds {succs : List Nat} (h : s.Orderly fn g) (hb : b ∈ s.visited)
    (hsuccs : ∀ c ∈ succs, c ∈ g.succ b) (hok : succs.foldlM (Renaming.feed b) s = .ok s') :
    s'.Orderly fn g := by
  refine (foldlM_keeps (P := fun x => x.Orderly fn g ∧ b ∈ x.visited) (fun c hc x x' hfeed hx => ?_)
    hok ⟨h, hb⟩).1
  refine ⟨hx.1.feed hx.2 (hsuccs c hc) hfeed, ?_⟩
  obtain ⟨current, -, rfl⟩ := feed_eq_ok.mp hfeed
  exact hx.2

end Orderly

theorem readsIn_cons (fn : Function) (r : Ref) (items : List Ref) :
    readsIn fn (r :: items) = readsIn fn [r] ++ readsIn fn items := by
  rw [readsIn, Function.accessesIn, ← List.singleton_append, List.filterMap_append,
    List.filter_append, List.map_append]
  rfl

theorem reads_access (h : access fn s r = .ok s') :
    s'.reads.map (·.1) = (readsIn fn [r]).reverse ++ s.reads.map (·.1) := by
  obtain ⟨n, hn, ⟨hwrite, hpush⟩ | ⟨hwrite, ⟨d, -, rfl⟩, haccess⟩ | ⟨haccess, rfl⟩⟩ := access_cases h
  · obtain ⟨_, rfl⟩ := restacks_push hpush
    simp [readsIn, Function.accessesIn, hn, hwrite, Kind.isLocalAccess_of_isLocalWrite hwrite]
  · simp [readsIn, Function.accessesIn, hn, hwrite, haccess]
  · simp [readsIn, Function.accessesIn, hn, haccess]

/-- The reads among some nodes are recorded in order, the last one first. -/
theorem reads_accesses {items : List Ref} (h : items.foldlM (access fn) s = .ok s') :
    s'.reads.map (·.1) = (readsIn fn items).reverse ++ s.reads.map (·.1) := by
  induction items generalizing s with
  | nil =>
    cases h
    rfl
  | cons r items ih =>
    obtain ⟨s₁, hr, hitems⟩ := foldlM_cons_eq_ok.mp h
    rw [ih hitems, reads_access hr, readsIn_cons fn r items, List.reverse_append, List.append_assoc]

namespace Orderly

theorem enterBlock (h : s.Orderly fn g) (hok : enterBlock fn g b s = .ok s') : s'.Orderly fn g := by
  obtain ⟨-, s₁, s₂, hmerges, hitems, hsucc⟩ := enterBlock_eq_ok.mp hok
  obtain ⟨_, rfl⟩ := restacks_merges hmerges
  have hvisited : s₂.visited = b :: s.visited := visited_accesses hitems
  have hphis : ∀ c, s₂.phisAt c = s.phisAt c := fun c => by rw [phisAt, phis_accesses hitems, phisAt]
  have hs : s₂.Orderly fn g := by
    refine ⟨?_, fun c phi p d hphi hd => ?_, fun c phi hphi => h.ascending (hphis c ▸ hphi)⟩
    · rw [hvisited, List.flatMap_cons, reads_accesses hitems]
      exact (List.append_sublist_append_left _).mpr h.reads
    · obtain ⟨hp, hc⟩ := h.edge (hphis c ▸ hphi) hd
      exact ⟨hvisited ▸ .tail _ hp, hc⟩
  exact hs.feeds (hvisited ▸ List.mem_cons_self) (fun c hc => hc) hsucc

theorem visit (h : s.Orderly fn g) (hok : visit fn g t depth b s = .ok s') : s'.Orderly fn g := by
  refine visit_keeps (fun hb hx => hx.enterBlock hb) (fun hpop hx => ?_) hok h
  obtain ⟨_, rfl⟩ := restacks_pop hpop
  exact hx.congr rfl rfl rfl

end Orderly

end Renaming

namespace Function

variable {fn : Function} {form : SsaForm} {t : DominatorTree} {s : Renaming} {b p : Nat} {r : Ref}
  {d : Definition} {phi : Phi}

namespace Constructs

theorem orderly (h : Constructs fn form t s) : s.Orderly fn form.graph := by
  have hempty : ∀ {b phi}, phi ∈ (fn.placePhis form.graph form.dominators).getD b [] →
      phi.incoming = [] := by
    intro b phi hmem
    rw [(mem_placePhis.mp hmem).2]
  have hstart :
      (Renaming.start fn (fn.placePhis form.graph form.dominators)).Orderly fn form.graph := by
    refine ⟨List.nil_sublist _, fun b phi p d hmem hd => ?_, fun b phi hmem => ?_⟩
    · simp [hempty hmem] at hd
    · rw [hempty hmem]
      exact .nil
  exact hstart.visit h.visit

/-- The visited blocks are the reachable ones, and each was visited once. -/
theorem visited_spec (h : Constructs fn form t s) :
    s.visited.Nodup ∧ ∀ b, b ∈ s.visited ↔ form.graph.Reaches 0 b := by
  have htree := h.tree.withFrontiers form.graph.pred
  rw [← h.dominators] at htree
  have hlt := (start?_eq_some.mp h.start).2
  have hdepth : form.dominators.size ≤ form.dominators.rank 0 + form.graph.size := by
    rw [htree.size_eq, htree.ranking.rank_entry]
    omega
  have hvisited : s.visited = (form.dominators.descent form.graph.size 0).reverse :=
    (Renaming.visited_visit h.visit).trans (List.append_nil _)
  rw [hvisited]
  refine ⟨List.nodup_reverse.mpr (htree.nodup_descent h.mirrored hlt (.refl 0) hdepth), fun b => ?_⟩
  rw [List.mem_reverse, htree.mem_descent_iff h.mirrored hlt (.refl 0) hdepth]
  exact ⟨fun hb => hb.reaches, .entry⟩

theorem nodup_reads (h : Constructs fn form t s) (hnodup : form.graph.allItems.Nodup) :
    (form.reads.map (·.1)).Nodup := by
  rw [h.reads, List.map_reverse, List.nodup_reverse]
  refine h.orderly.reads.nodup (List.nodup_flatMap.mpr ⟨fun b _ => ?_, ?_⟩)
  · exact List.nodup_reverse.mpr ((nodup_items hnodup b).sublist (Renaming.readsIn_sublist fn _))
  · refine h.visited_spec.1.imp fun {b c} hne x hx hx' => ?_
    simp only [List.mem_reverse, Renaming.mem_readsIn] at hx hx'
    exact hne (eq_of_mem_items hnodup hx.1 hx'.1)

theorem recorded_of_mem_reads (h : Constructs fn form t s) (hread : (r, d) ∈ form.reads) :
    ∃ b n, form.graph.Reaches 0 b ∧ r ∈ form.graph.items b ∧ fn.node? r = some n ∧
      n.kind = .localGet := by
  rw [h.reads, List.mem_reverse] at hread
  have hmem := h.orderly.reads.subset (List.mem_map_of_mem hread)
  obtain ⟨b, hb, hr⟩ := List.mem_flatMap.mp hmem
  obtain ⟨hitem, n, hn, hget⟩ := Renaming.mem_readsIn.mp (List.mem_reverse.mp hr)
  exact ⟨b, n, (h.visited_spec.2 b).mp hb, hitem, hn, hget⟩

theorem edge_of_mem_incoming (h : Constructs fn form t s) (hphi : phi ∈ form.phisAt b)
    (hd : (p, d) ∈ phi.incoming) : p ∈ form.graph.pred b ∧ form.graph.Reaches 0 p := by
  rw [SsaForm.phisAt, h.phis] at hphi
  obtain ⟨hp, hb⟩ := h.orderly.edge hphi hd
  exact ⟨h.mirrored.mem_pred.mpr hb, (h.visited_spec.2 p).mp hp⟩

end Constructs

namespace Renamed

theorem index_of_mem_reads (h : Renamed fn form t s) (hread : (r, d) ∈ form.reads) :
    ∃ n, fn.node? r = some n ∧ d.index = n.index := by
  rw [h.reads, List.mem_reverse] at hread
  obtain ⟨b, before, rest, n, d₀, -, hn, hd₀, rfl⟩ := h.sound.reads hread
  exact ⟨n, hn, index_foldl_after (index_enter hd₀.index_eq) before⟩

theorem index_of_mem_incoming (h : Renamed fn form t s) (hphi : phi ∈ form.phisAt b)
    (hd : (p, d) ∈ phi.incoming) : d.index = phi.index := by
  rw [SsaForm.phisAt, h.phis] at hphi
  obtain ⟨d₀, hd₀, rfl⟩ := h.sound.incoming hphi hd
  exact index_across hd₀.index_eq

end Renamed

end Function

namespace SsaForm

variable {form : SsaForm} {r : Ref} {d : Definition}

/-- Where a read is listed once, the definition it sees is the one it is listed with. -/
theorem definitionOf?_eq_some_iff (hnodup : (form.reads.map (·.1)).Nodup) :
    form.definitionOf? r = some d ↔ (r, d) ∈ form.reads := by
  rw [definitionOf?]
  constructor
  · intro h
    obtain ⟨before, rest, hreads, -⟩ := List.lookup_eq_some_iff.mp h
    rw [← List.mem_reverse, hreads]
    simp
  · intro h
    refine lookup_eq_some_of_mem ⟨d, List.mem_reverse.mpr h⟩ fun d' hd' => ?_
    have heq := List.inj_on_of_nodup_map hnodup (List.mem_reverse.mp hd') h rfl
    exact (Prod.mk.inj heq).2

theorem nodup_usesOf (hnodup : (form.reads.map (·.1)).Nodup) (d : Definition) :
    (form.usesOf d).Nodup :=
  hnodup.sublist (List.filter_sublist.map _)

theorem mem_usesOf : r ∈ form.usesOf d ↔ (r, d) ∈ form.reads := by
  simp [usesOf]

theorem uses_ascending (form : SsaForm) : form.uses.Pairwise (· < ·) := by
  rw [uses, List.pairwise_map]
  exact (IndexSet.ofList _).ascending.imp fun hlt => Int.ofNat_lt.mpr hlt

theorem mem_uses (hpresent : ∀ x ∈ form.reads, 0 ≤ x.1) :
    r ∈ form.uses ↔ ∃ d, (r, d) ∈ form.reads := by
  simp only [uses, List.mem_map, IndexSet.mem_toList, IndexSet.mem_ofList]
  constructor
  · rintro ⟨i, ⟨x, hx, rfl⟩, rfl⟩
    have hnat : Int.ofNat x.1.toNat = x.1 := Int.toNat_of_nonneg (hpresent x hx)
    rw [hnat]
    exact ⟨x.2, hx⟩
  · rintro ⟨d, hd⟩
    exact ⟨_, ⟨(r, d), hd, rfl⟩, Int.toNat_of_nonneg (hpresent _ hd)⟩

end SsaForm

namespace Function

variable {fn : Function} {form : SsaForm}

/-- The reads in reachable blocks, and no others, see a definition, each of its own local. A
definition lists the reads that see it, each once, and a merge has one entry, of its own local, for
each reachable predecessor. -/
theorem ssa_uses_exact (hvalid : fn.validate = .ok ()) (h : fn.ssa = .ok form) :
    fn.nodeGraph = .ok form.graph ∧ form.graph.start? = some 0 ∧
      (∀ r, (∃ d, form.definitionOf? r = some d) ↔
        ∃ b n, form.graph.Reaches 0 b ∧ r ∈ form.graph.items b ∧ fn.node? r = some n ∧
          n.kind = .localGet) ∧
      (∀ r d n, form.definitionOf? r = some d → fn.node? r = some n → d.index = n.index) ∧
      (∀ d, (form.usesOf d).Nodup ∧ ∀ r, r ∈ form.usesOf d ↔ form.definitionOf? r = some d) ∧
      (form.uses.Pairwise (· < ·) ∧ ∀ r, r ∈ form.uses ↔ ∃ d, form.definitionOf? r = some d) ∧
      ∀ b, ∀ phi ∈ form.phisAt b, phi.block = b ∧ phi.incoming.Pairwise (·.1 < ·.1) ∧
        (∀ p, (∃ d, (p, d) ∈ phi.incoming) ↔ p ∈ form.graph.pred b ∧ form.graph.Reaches 0 p) ∧
        ∀ p d, (p, d) ∈ phi.incoming → d.index = phi.index := by
  obtain ⟨tree, htree⟩ := wellFormed_of_validate hvalid
  obtain ⟨_, _, hform⟩ := exists_constructs h
  obtain ⟨t, s, hs⟩ := exists_renamed h
  have hnodup := hform.nodup_reads (htree.nodup_allItems hform.graph)
  have hsees : ∀ {r d}, form.definitionOf? r = some d ↔ (r, d) ∈ form.reads :=
    SsaForm.definitionOf?_eq_some_iff hnodup
  have hpresent : ∀ x ∈ form.reads, 0 ≤ x.1 := by
    intro x hx
    obtain ⟨-, n, -, -, hn, -⟩ := hform.recorded_of_mem_reads hx
    exact of_decide_eq_true (Tree.isPresent_of_node? hn)
  simp only [hsees]
  refine ⟨hform.graph, hform.start, fun r => ⟨?_, ?_⟩, ?_,
    fun d => ⟨SsaForm.nodup_usesOf hnodup d, fun r => SsaForm.mem_usesOf⟩,
    ⟨form.uses_ascending, fun r => SsaForm.mem_uses hpresent⟩, fun b phi hphi => ⟨?_, ?_, ?_, ?_⟩⟩
  · rintro ⟨d, hread⟩
    exact hform.recorded_of_mem_reads hread
  · rintro ⟨b, n, hb, hr, hn, hget⟩
    rw [hs.reads]
    simp only [List.mem_reverse]
    exact (hs.covers b hb).reads r hr n hn hget
  · intro r d n hread hn
    obtain ⟨n', hn', hindex⟩ := hs.index_of_mem_reads hread
    obtain rfl : n = n' := Option.some.inj (hn.symm.trans hn')
    exact hindex
  · rw [SsaForm.phisAt, hs.phis] at hphi
    obtain ⟨v, -, hdef⟩ := hs.sound.mem_definitions.mp (List.mem_map_of_mem hphi)
    exact (Definition.phi.inj hdef).1
  · rw [SsaForm.phisAt, hform.phis] at hphi
    exact hform.orderly.ascending hphi
  · intro p
    constructor
    · rintro ⟨d, hd⟩
      exact hform.edge_of_mem_incoming hphi hd
    · rintro ⟨hp, hreach⟩
      rw [SsaForm.phisAt, hs.phis] at hphi
      exact (hs.covers p hreach).fed b (hs.mirrored.mem_pred.mp hp) phi hphi
  · intro p d hd
    exact hs.index_of_mem_incoming hphi hd

/-- A loop that starts over while the parameter is not zero. What follows its return reads the
variable and starts the loop over too, but control does not come to it. -/
def lingering : Function where
  name := "lingering"
  params := [.i32]
  vars := [.i32]
  body := 9
  nodes := #[
    { kind := .localGet, type := .i32, index := 1 },
    { kind := .localSet, index := 1, kids := [0] },
    { kind := .localGet, type := .i32, index := 0 },
    { kind := .br, label := "top", kids := [.absent, 2] },
    { kind := .ret, kids := [.absent] },
    { kind := .localGet, type := .i32, index := 1 },
    { kind := .localSet, index := 1, kids := [5] },
    { kind := .br, label := "top", kids := [.absent, .absent] },
    { kind := .block, kids := [1, 3, 4, 6, 7] },
    { kind := .loop, label := "top", kids := [8] }]

theorem ssa_uses_exact_lingering :
    lingering.validate = .ok () ∧ ∃ form phi, lingering.ssa = .ok form ∧ form.phisAt 1 = [phi] ∧
      form.graph.pred 1 = [0, 1, 4] ∧ phi.incoming = [(0, .zero 1), (1, .instr 1 1)] ∧
      ¬form.graph.Reaches 0 4 ∧ form.graph.items 4 = [5, 6, 7] ∧ 5 ∉ form.uses ∧
      form.definitionOf? 0 = some (.phi 1 1) ∧ form.usesOf (.phi 1 1) = [0] ∧
      ∃ b, form.graph.Reaches 0 b ∧ 0 ∈ form.graph.items b := by
  have hvalid : lingering.validate = .ok () := by cbv
  obtain ⟨form, phi, hssa, hphis, hpred, hincoming, hitems, huses, hsees, husesOf⟩ :
      ∃ form phi, lingering.ssa = .ok form ∧ form.phisAt 1 = [phi] ∧
        form.graph.pred 1 = [0, 1, 4] ∧ phi.incoming = [(0, .zero 1), (1, .instr 1 1)] ∧
        form.graph.items 4 = [5, 6, 7] ∧ form.uses = [0, 2] ∧
        form.definitionOf? 0 = some (.phi 1 1) ∧ form.usesOf (.phi 1 1) = [0] :=
    ⟨_, _, by cbv, rfl, rfl, rfl, rfl, rfl, rfl, rfl⟩
  obtain ⟨-, -, hreads, -, -, -, hmerges⟩ := ssa_uses_exact hvalid hssa
  have hdead : ¬form.graph.Reaches 0 4 := by
    intro hreach
    obtain ⟨d, hd⟩ := ((hmerges 1 phi (by simp [hphis])).2.2.1 4).mpr ⟨by simp [hpred], hreach⟩
    simp [hincoming] at hd
  obtain ⟨b, -, hb, hmem, -⟩ := (hreads 0).mp ⟨_, hsees⟩
  exact ⟨hvalid, form, phi, hssa, hphis, hpred, hincoming, hdead, hitems, by simp [huses], hsees, husesOf,
    b, hb, hmem⟩

end Function

end LocalFlow
