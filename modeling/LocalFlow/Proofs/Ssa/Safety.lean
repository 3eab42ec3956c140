import Mathlib
import LocalFlow.Proofs.Graph.Scoping
import LocalFlow.Proofs.Ssa.Chains
import LocalFlow.Proofs.Ssa.Descent

/-! When a function has a form. On a finite body of any shape only two things stand in the way: a
label that names no enclosing construct, and an access to an undeclared local in a reachable block.
A renaming comes to no node that does not exist, and to no stack that does not exist or is empty. -/

namespace LocalFlow

open LocalFlow.Graph Definition

namespace Renaming

variable {s s' s'' : Renaming} {fn : Function} {g : Graph Ref} {t : DominatorTree}
  {merges : Nat → Nat → Bool} {b c v depth : Nat} {d : Definition} {vs : List Nat} {r : Ref}

section Building

/-- What was on the stacks of `s` is still there under what was pushed on the way to `s'`, and the
merges are of the same locals. -/
structure BuildsOn (s s' : Renaming) : Prop where
  raised : ∃ vs, Raised vs s s'
  merges : ∀ c, (s'.phisAt c).map (·.index) = (s.phisAt c).map (·.index)

namespace BuildsOn

theorem of_eq (hreaching : s'.reaching = s.reaching) (hphis : s'.phis = s.phis) : s.BuildsOn s' :=
  ⟨⟨[], .of_reaching_eq hreaching⟩, fun c => by rw [phisAt, hphis, phisAt]⟩

theorem refl (s : Renaming) : s.BuildsOn s := of_eq rfl rfl

theorem trans (h : s.BuildsOn s') (h' : s'.BuildsOn s'') : s.BuildsOn s'' := by
  obtain ⟨⟨vs, hraised⟩, hmerges⟩ := h
  obtain ⟨⟨vs', hraised'⟩, hmerges'⟩ := h'
  exact ⟨⟨vs ++ vs', hraised.trans hraised'⟩, fun c => (hmerges' c).trans (hmerges c)⟩

theorem push (h : s.push d = .ok s') : s.BuildsOn s' := by
  refine ⟨⟨_, .push h⟩, fun c => ?_⟩
  obtain ⟨_, rfl⟩ := restacks_push h
  rfl

theorem access (h : access fn s r = .ok s') : s.BuildsOn s' :=
  ⟨⟨_, .access h⟩, fun c => by rw [phisAt, phis_access h, phisAt]⟩

theorem feed (h : feed b s c = .ok s') : s.BuildsOn s' := by
  obtain ⟨current, -, rfl⟩ := feed_eq_ok.mp h
  refine ⟨⟨[], .of_reaching_eq rfl⟩, fun x => ?_⟩
  rw [phisAt_setIfInBounds]
  split
  · rw [List.map_map]
    rfl
  · rfl

theorem enterBlock (h : enterBlock fn g b s = .ok s') : s.BuildsOn s' := by
  obtain ⟨-, s₁, s₂, hmerges, hitems, hsucc⟩ := enterBlock_eq_ok.mp h
  have hs₁ : s.BuildsOn s₁ := foldlM_keeps (fun _ _ _ _ hpush hx => hx.trans (.push hpush)) hmerges
    (of_eq rfl rfl)
  have hs₂ : s.BuildsOn s₂ := foldlM_keeps (fun _ _ _ _ haccess hx => hx.trans (.access haccess))
    hitems hs₁
  exact foldlM_keeps (fun _ _ _ _ hfeed hx => hx.trans (.feed hfeed)) hsucc hs₂

theorem visit (h : visit fn g t depth b s = .ok s') : s.BuildsOn s' := by
  refine ⟨⟨[], .of_reaching_eq (reaching_visit h)⟩, ?_⟩
  refine visit_keeps (P := fun x => ∀ c, (x.phisAt c).map (·.index) = (s.phisAt c).map (·.index))
    (fun hb hx c => ((enterBlock hb).merges c).trans (hx c)) (fun hpop hx => ?_) h fun _ => rfl
  obtain ⟨_, rfl⟩ := restacks_pop hpop
  exact hx

end BuildsOn

end Building

/-- Every declared local has a stack with a definition on it, and every merge is of a declared
local. -/
structure LocalsDefined (fn : Function) (s : Renaming) : Prop where
  size_eq : s.reaching.size = fn.numLocals
  top : ∀ ⦃v⦄, v < fn.numLocals → ∃ d, s.top v = .ok d
  merges : ∀ ⦃c phi⦄, phi ∈ s.phisAt c → phi.index < fn.numLocals

/-- No stack is empty above one that is not. -/
theorem BuildsOn.localsDefined (h : s.BuildsOn s') (hs : s.LocalsDefined fn) :
    s'.LocalsDefined fn := by
  obtain ⟨⟨vs, hraised⟩, hmerges⟩ := h
  have hstack : ∀ v, ∃ pushed : List Definition,
      s'.reaching[v]? = s.reaching[v]?.map (pushed ++ ·) := fun v =>
    (hraised v).imp fun _ hpushed => hpushed.2
  refine ⟨?_, fun v hv => ?_, fun c phi hphi => ?_⟩
  · rw [← hs.size_eq]
    refine Nat.le_antisymm ?_ ?_
    · obtain ⟨pushed, heq⟩ := hstack s.reaching.size
      exact Array.getElem?_eq_none_iff.mp (by simp [heq])
    · obtain ⟨pushed, heq⟩ := hstack s'.reaching.size
      rw [Array.getElem?_eq_none le_rfl] at heq
      exact Array.getElem?_eq_none_iff.mp (Option.map_eq_none_iff.mp heq.symm)
  · obtain ⟨d, hd⟩ := hs.top hv
    obtain ⟨rest, hrest⟩ := top_eq_ok.mp hd
    obtain ⟨pushed, heq⟩ := hstack v
    rw [hrest] at heq
    cases pushed with
    | nil => exact ⟨d, top_eq_ok.mpr ⟨rest, heq⟩⟩
    | cons d' pushed => exact ⟨d', top_eq_ok.mpr ⟨_, heq⟩⟩
  · have hindex := List.mem_map_of_mem (f := (·.index)) hphi
    rw [hmerges] at hindex
    obtain ⟨old, hold, heq⟩ := List.mem_map.mp hindex
    exact heq ▸ hs.merges hold

namespace LocalsDefined

theorem exists_push (h : s.LocalsDefined fn) (hd : d.index < fn.numLocals) :
    ∃ s', s.push d = .ok s' := by
  have hlt : d.index < s.reaching.size := h.size_eq ▸ hd
  exact ⟨_, push_eq_ok.mpr ⟨_, Array.getElem?_eq_getElem hlt, rfl⟩⟩

theorem exists_access (h : s.LocalsDefined fn) (hr : fn.checkAccess r = .ok ()) :
    ∃ s', access fn s r = .ok s' := by
  obtain ⟨n, hn, hdeclared⟩ := Function.checkAccess_eq_ok.mp hr
  rw [access, Function.node_eq_ok.mpr hn, ok_bind]
  split
  · rename_i hwrite
    exact h.exists_push (hdeclared (Kind.isLocalAccess_of_isLocalWrite hwrite))
  · split
    · rename_i haccess
      obtain ⟨d, hd⟩ := h.top (hdeclared haccess)
      rw [hd]
      exact ⟨_, rfl⟩
    · exact ⟨s, rfl⟩

theorem exists_feed (h : s.LocalsDefined fn) (b c : Nat) : ∃ s', feed b s c = .ok s' := by
  have htops : ∀ v, ∃ d, v < fn.numLocals → s.top v = .ok d := by
    intro v
    by_cases hv : v < fn.numLocals
    · exact (h.top hv).imp fun d hd _ => hd
    · exact ⟨.zero v, fun hlt => absurd hlt hv⟩
  obtain ⟨current, hcurrent⟩ := Classical.axiomOfChoice htops
  exact ⟨_, feed_eq_ok.mpr ⟨current, fun phi hphi => hcurrent _ (h.merges hphi), rfl⟩⟩

theorem exists_enterBlock (h : s.LocalsDefined fn) (hb : b < g.size)
    (hitems : ∀ r ∈ g.items b, fn.checkAccess r = .ok ()) : ∃ s', enterBlock fn g b s = .ok s' := by
  have hstart : ({ s with visited := b :: s.visited } : Renaming).LocalsDefined fn :=
    ⟨h.size_eq, h.top, h.merges⟩
  obtain ⟨s₁, hmerges, hs₁⟩ : ∃ s₁, (s.phisAt b).foldlM (fun s phi => s.push phi.definition)
      { s with visited := b :: s.visited } = .ok s₁ ∧ s₁.LocalsDefined fn := by
    refine foldlM_total (fun phi hphi x hx => ?_) hstart
    obtain ⟨x', hpush⟩ := hx.exists_push (d := phi.definition) (h.merges hphi)
    exact ⟨x', hpush, (BuildsOn.push hpush).localsDefined hx⟩
  obtain ⟨s₂, haccesses, hs₂⟩ : ∃ s₂, (g.items b).foldlM (access fn) s₁ = .ok s₂ ∧
      s₂.LocalsDefined fn := by
    refine foldlM_total (fun r hr x hx => ?_) hs₁
    obtain ⟨x', haccess⟩ := hx.exists_access (hitems r hr)
    exact ⟨x', haccess, (BuildsOn.access haccess).localsDefined hx⟩
  obtain ⟨s', hfeeds, -⟩ : ∃ s', (g.succ b).foldlM (feed b) s₂ = .ok s' ∧ s'.LocalsDefined fn := by
    refine foldlM_total (fun c _ x hx => ?_) hs₂
    obtain ⟨x', hfeed⟩ := hx.exists_feed b c
    exact ⟨x', hfeed, (BuildsOn.feed hfeed).localsDefined hx⟩
  exact ⟨s', enterBlock_eq_ok.mpr ⟨hb, s₁, s₂, hmerges, haccesses, hfeeds⟩⟩

theorem lt_of_mem_pushedIn (h : s.LocalsDefined fn)
    (hitems : ∀ r ∈ g.items b, fn.checkAccess r = .ok ()) (hv : v ∈ pushedIn fn g b s) :
    v < fn.numLocals := by
  rcases List.mem_append.mp hv with hv | hv
  · obtain ⟨phi, hphi, rfl⟩ := List.mem_map.mp hv
    exact h.merges hphi
  · obtain ⟨⟨r, n⟩, hmem, rfl⟩ := List.mem_map.mp hv
    obtain ⟨hr, hn, haccess⟩ := Function.mem_accessesIn.mp (List.mem_filter.mp hmem).1
    exact (Function.forall_checkAccess_iff.mp hitems).2 r hr n hn haccess

end LocalsDefined

theorem Raised.exists_pops (h : Raised vs s s') (hvs : ∀ v ∈ vs, v < s.reaching.size) :
    ∃ s'', vs.foldlM Renaming.pop s' = .ok s'' := by
  induction vs generalizing s' with
  | nil => exact ⟨s', rfl⟩
  | cons v vs ih =>
    obtain ⟨pushed, hlength, hstack⟩ := h v
    rw [List.count_cons_self] at hlength
    obtain ⟨d, pushed, rfl⟩ := List.exists_cons_of_length_eq_add_one hlength
    rw [Array.getElem?_eq_getElem (hvs v (by simp))] at hstack
    obtain ⟨s₁, hpop⟩ : ∃ s₁, s'.pop v = .ok s₁ := ⟨_, pop_eq_ok.mpr ⟨d, _, hstack, rfl⟩⟩
    obtain ⟨s'', hpops⟩ := ih (h.pop hpop) fun w hw => hvs w (.tail _ hw)
    exact ⟨s'', foldlM_cons_eq_ok.mpr ⟨s₁, hpop, hpops⟩⟩

/-- A visit of a reachable block looks up nothing that is not there. -/
theorem LocalsDefined.exists_visit {e : Nat} (ht : g.IsDominatorTree e t) (hg : g.Mirrored)
    (he : e < g.size) (hitems : ∀ b, g.Reaches e b → ∀ r ∈ g.items b, fn.checkAccess r = .ok ())
    (hb : g.Reaches e b) (hdepth : t.size ≤ t.rank b + depth) (h : s.LocalsDefined fn) :
    ∃ s', visit fn g t depth b s = .ok s' := by
  induction depth generalizing b s with
  | zero =>
    have hlt := ht.rank_lt hg he hb
    omega
  | succ depth ih =>
    obtain ⟨s₁, henter⟩ := h.exists_enterBlock (hg.lt_size_of_reaches he hb) (hitems b hb)
    obtain ⟨s₂, hbelow, -⟩ : ∃ s₂, (t.children b).foldlM (fun s c => visit fn g t depth c s) s₁ =
        .ok s₂ ∧ s₂.LocalsDefined fn := by
      refine foldlM_total (fun c hc x hx => ?_) ((BuildsOn.enterBlock henter).localsDefined h)
      obtain ⟨-, hreach, hrank⟩ := ht.child_spec hg he hc
      obtain ⟨x', hvisit⟩ := ih hreach (by omega) hx
      exact ⟨x', hvisit, (BuildsOn.visit hvisit).localsDefined hx⟩
    -- The children leave the stacks as high as the block has raised them.
    obtain ⟨s', hpops⟩ := (Raised.children henter reaching_visit hbelow).exists_pops fun v hv =>
      h.size_eq ▸ h.lt_of_mem_pushedIn (hitems b hb) hv
    exact ⟨s', visit_succ_eq_ok.mpr ⟨s₁, s₂, henter, hbelow, hpops⟩⟩

theorem Enters.localsDefined {inherited : Nat → Definition} (h : s.Enters fn g t merges b inherited)
    (hmerges : ∀ v c, merges v c = true → v < fn.numLocals) : s.LocalsDefined fn :=
  ⟨h.carries.size_eq, fun _ hv => ⟨_, h.carries.top hv⟩,
    fun _ _ hphi => hmerges _ _ (h.sound.merges_of_mem hphi)⟩

end Renaming

namespace Function

/-- Of all accesses to undeclared locals in reachable blocks, the one at `r` in block `b` comes
first, by the number of the block and then by the order in the block. -/
structure FirstUndeclared (fn : Function) (g : Graph Ref) (b : Nat) (r : Ref) (n : Node) : Prop where
  reaches : g.Reaches 0 b
  node : fn.node? r = some n
  access : n.kind.isLocalAccess = true
  undeclared : fn.numLocals ≤ n.index
  before : ∃ before rest, g.items b = before ++ r :: rest ∧ Renaming.Declared fn before
  earlier : ∀ c < b, g.Reaches 0 c → Renaming.Declared fn (g.items c)

variable {fn : Function} {g : Graph Ref} {t : DominatorTree} {tree : Tree} {r : Ref} {n : Node}
  {f : Failure} {form : SsaForm}

theorem checkAccess_eq_error (hn : fn.node? r = some n) : fn.checkAccess r = .error f ↔
    n.kind.isLocalAccess = true ∧ fn.numLocals ≤ n.index ∧
      f = .rejected (.localIndex fn.name r n.index fn.numLocals) := by
  rw [checkAccess, node_eq_ok.mpr hn, ok_bind]
  split
  · rename_i hcond
    simp only [Bool.and_eq_true, decide_eq_true_eq] at hcond
    exact ⟨fun h => ⟨hcond.1, hcond.2, (Except.error.inj h).symm⟩, fun h => h.2.2 ▸ rfl⟩
  · rename_i hcond
    simp only [Bool.and_eq_true, decide_eq_true_eq] at hcond
    exact ⟨fun h => (by cases h), fun h => absurd ⟨h.1, h.2.1⟩ hcond⟩

section Scan

variable (ht : g.IsDominatorTree 0 t) (hg : g.Mirrored) (hpos : 0 < g.size)
include ht hg hpos

/-- The reachable blocks are gone through by ascending number. -/
theorem reaches_of_reachable_eq {before rest : List Nat} {b : Nat}
    (hblocks : (List.range g.size).filter t.isReachable = before ++ b :: rest) :
    g.Reaches 0 b ∧ ∀ c, c ∈ before ↔ g.Reaches 0 c ∧ c < b := by
  have hmem : ∀ c, c ∈ before ++ b :: rest ↔ g.Reaches 0 c := fun c =>
    hblocks ▸ mem_reachable_iff ht hg hpos
  have hsorted : (before ++ b :: rest).Pairwise (· < ·) := hblocks ▸ List.pairwise_lt_range.filter _
  obtain ⟨-, hafter, hbefore⟩ := List.pairwise_append.mp hsorted
  refine ⟨(hmem b).mp (by simp), fun c => ⟨fun hc => ?_, fun hc => ?_⟩⟩
  · exact ⟨(hmem c).mp (List.mem_append_left _ hc), hbefore c hc b (by simp)⟩
  · rcases List.mem_append.mp ((hmem c).mpr hc.1) with hmem | hmem
    · exact hmem
    · rcases List.mem_cons.mp hmem with rfl | hmem
      · omega
      · have hlt := (List.pairwise_cons.mp hafter).1 c hmem
        omega

/-- The access that is reported is the first one to an undeclared local. -/
theorem checkAccesses_eq_error (hnodes : ∀ b, ∀ r ∈ g.items b, ∃ n, fn.node? r = some n) :
    fn.checkAccesses g t = .error f ↔ ∃ b r n, fn.FirstUndeclared g b r n ∧
      f = .rejected (.localIndex fn.name r n.index fn.numLocals) := by
  rw [checkAccesses, forM_eq_error]
  constructor
  · rintro ⟨before, b, rest, hblocks, hbefore, hb⟩
    obtain ⟨pre, r, post, hitems, hpre, hr⟩ := forM_eq_error.mp hb
    obtain ⟨n, hn⟩ := hnodes b r (by simp [hitems])
    obtain ⟨haccess, hindex, rfl⟩ := (checkAccess_eq_error hn).mp hr
    obtain ⟨hreach, hearlier⟩ := reaches_of_reachable_eq ht hg hpos hblocks
    refine ⟨b, r, n, ⟨hreach, hn, haccess, hindex, ⟨pre, post, hitems, ?_⟩, fun c hcb hc => ?_⟩, rfl⟩
    · exact (forall_checkAccess_iff.mp hpre).2
    · have hok := hbefore c ((hearlier c).mpr ⟨hc, hcb⟩)
      exact (forall_checkAccess_iff.mp (forM_eq_ok.mp hok)).2
  · rintro ⟨b, r, n, hfirst, rfl⟩
    obtain ⟨pre, post, hitems, hpre⟩ := hfirst.before
    obtain ⟨before, rest, hblocks⟩ :=
      List.append_of_mem ((mem_reachable_iff ht hg hpos).mpr hfirst.reaches)
    obtain ⟨-, hearlier⟩ := reaches_of_reachable_eq ht hg hpos hblocks
    refine ⟨before, b, rest, hblocks, fun c hc => ?_, ?_⟩
    · obtain ⟨hreach, hcb⟩ := (hearlier c).mp hc
      exact forM_eq_ok.mpr (forall_checkAccess_iff.mpr ⟨hnodes c, hfirst.earlier c hcb hreach⟩)
    · refine forM_eq_error.mpr ⟨pre, r, post, hitems, ?_, ?_⟩
      · exact forall_checkAccess_iff.mpr
          ⟨fun r hr => hnodes b r (by simp [hitems, hr]), hpre⟩
      · exact (checkAccess_eq_error hfirst.node).mpr ⟨hfirst.access, hfirst.undeclared, rfl⟩

theorem exists_ssaOver (hcheck : fn.checkAccesses g t = .ok ()) :
    ∃ form, fn.ssaOver g t = .ok form := by
  obtain ⟨rest, horder⟩ := List.head?_eq_some_iff.mp ht.ranking.head
  have hdepth : t.size ≤ t.rank 0 + g.size := by
    rw [ht.size_eq, ht.ranking.rank_entry]
    omega
  have hitems := fun b hb => forall_checkAccess_iff.mpr ((checkAccesses_eq_ok ht hg hpos).mp hcheck b hb)
  have henters : (Renaming.start fn (fn.placePhis g t)).Enters fn g t (fn.mergesIn g t) 0
      (.initial fn) := enters_start ht
  have hstart := henters.localsDefined fun v c hm => (mergesIn_iff.mp hm).1
  obtain ⟨s, hvisit⟩ := hstart.exists_visit ht hg hpos hitems (.refl 0) hdepth
  rw [ssaOver, hcheck, ok_bind]
  simp only [horder, hvisit]
  exact ⟨_, rfl⟩

end Scan

/-- Once the graph is made, the form is sought over the graph and its dominators, and it is refused
for what the check of the accesses reports. -/
theorem exists_checkAccesses (hgraph : fn.nodeGraph = .ok g) :
    ∃ t, g.Mirrored ∧ g.start? = some 0 ∧ g.IsDominatorTree 0 t ∧
      ((∃ form, fn.ssa = .ok form) ↔ fn.checkAccesses g t = .ok ()) ∧
      ∀ f, fn.ssa = .error f ↔ ∃ why, fn.checkAccesses g t = .error why ∧
        f = why.inPass .ssa fn.name := by
  obtain ⟨hmirrored, hstart, -⟩ := lower_lays hgraph
  obtain ⟨t, ht, htree⟩ := exists_dominatorTree hmirrored hstart
  have htree' := htree.withFrontiers g.pred
  have hssa : fn.ssa = (fn.ssaOver g (t.withFrontiers g.pred)).mapError (.inPass .ssa fn.name) := by
    rw [ssa, hgraph, ok_bind, ht, ok_bind]
  refine ⟨_, hmirrored, hstart, htree', ?_⟩
  cases hcheck : fn.checkAccesses g (t.withFrontiers g.pred) with
  | ok =>
    obtain ⟨form, hform⟩ := exists_ssaOver htree' hmirrored (start?_eq_some.mp hstart).2 hcheck
    simp [hssa, hform, Except.mapError]
  | error why =>
    have hrefused : fn.ssaOver g (t.withFrontiers g.pred) = .error why := by
      rw [ssaOver, hcheck]
      rfl
    simp [hssa, hrefused, Except.mapError, eq_comm]

theorem exists_node_of_mem_items (hat : tree.IsAt fn fn.body) (hgraph : fn.nodeGraph = .ok g) :
    ∀ b, ∀ r ∈ g.items b, ∃ n, fn.node? r = some n := by
  intro b r hr
  obtain ⟨n, -, hn⟩ := exists_mem_nodes hat hgraph hr
  exact ⟨n, hn⟩

theorem ssa_eq_error_iff (hat : tree.IsAt fn fn.body) (hgraph : fn.nodeGraph = .ok g) :
    fn.ssa = .error f ↔ ∃ b r n, fn.FirstUndeclared g b r n ∧
      f = .within .ssa fn.name (.localIndex fn.name r n.index fn.numLocals) := by
  obtain ⟨t, hmirrored, hstart, htree, -, herror⟩ := exists_checkAccesses hgraph
  simp only [herror, checkAccesses_eq_error htree hmirrored (start?_eq_some.mp hstart).2
    (exists_node_of_mem_items hat hgraph)]
  constructor
  · rintro ⟨_, ⟨b, r, n, hfirst, rfl⟩, rfl⟩
    exact ⟨b, r, n, hfirst, rfl⟩
  · rintro ⟨b, r, n, hfirst, rfl⟩
    exact ⟨_, ⟨b, r, n, hfirst, rfl⟩, rfl⟩

theorem exists_ssa_iff (hat : tree.IsAt fn fn.body) (hgraph : fn.nodeGraph = .ok g) :
    (∃ form, fn.ssa = .ok form) ↔ ∀ b, g.Reaches 0 b → Renaming.Declared fn (g.items b) := by
  obtain ⟨t, hmirrored, hstart, htree, hok, -⟩ := exists_checkAccesses hgraph
  rw [hok, checkAccesses_eq_ok htree hmirrored (start?_eq_some.mp hstart).2]
  exact forall₂_congr fun b _ => and_iff_right (exists_node_of_mem_items hat hgraph b)

theorem WellFormed.ssa_total (h : fn.WellFormed tree) (hstrays : fn.strayLabels = []) :
    ∃ form, fn.ssa = .ok form := by
  obtain ⟨g, hgraph⟩ := (h.lower_failsAt some).exists_ok hstrays
  refine (exists_ssa_iff h.isAt hgraph).mpr fun b _ r hr n hn haccess => ?_
  obtain ⟨n', hmem, hn'⟩ := exists_mem_nodes h.isAt hgraph hr
  obtain rfl : n = n' := Option.some.inj (hn.symm.trans hn')
  exact index_lt_of_rejection? (h.accepted _ hmem) haccess

theorem ssa_of_unresolvedLabel {label : String}
    (hgraph : fn.nodeGraph = .error (.rejected (.unresolvedLabel label))) :
    fn.ssa = .error (.within .ssa fn.name (.unresolvedLabel label)) := by
  rw [ssa, hgraph]
  rfl

theorem ssa_error_cases (hat : tree.IsAt fn fn.body) (h : fn.ssa = .error f) :
    (∃ label, fn.nodeGraph = .error (.rejected (.unresolvedLabel label)) ∧
        f = .within .ssa fn.name (.unresolvedLabel label)) ∨
      ∃ r v, f = .within .ssa fn.name (.localIndex fn.name r v fn.numLocals) := by
  cases hgraph : fn.nodeGraph with
  | error f' =>
    obtain ⟨label, rfl⟩ := nodeGraph_eq_error hat hgraph
    exact .inl ⟨label, rfl, Except.error.inj (h.symm.trans (ssa_of_unresolvedLabel hgraph))⟩
  | ok g =>
    obtain ⟨b, r, n, -, heq⟩ := (ssa_eq_error_iff hat hgraph).mp h
    exact .inr ⟨r, n.index, heq⟩

/-- A function whose body is a finite tree, of any shape, has a form unless a label names no
enclosing construct or an access in a reachable block names no declared local. The first such access
is reported. Nothing is looked up that is not there. -/
theorem ssa_outcome (hat : tree.IsAt fn fn.body) :
    fn.ssa ≠ .error .outOfRange ∧
      (∀ f, fn.nodeGraph = .error f → ∃ label, f = .rejected (.unresolvedLabel label)) ∧
      (∀ label, fn.ssa = .error (.within .ssa fn.name (.unresolvedLabel label)) ↔
        fn.nodeGraph = .error (.rejected (.unresolvedLabel label))) ∧
      ∀ g, fn.nodeGraph = .ok g → g.start? = some 0 ∧
        (∀ f, fn.ssa = .error f ↔ ∃ b r n, fn.FirstUndeclared g b r n ∧
          f = .within .ssa fn.name (.localIndex fn.name r n.index fn.numLocals)) ∧
        ((∃ form, fn.ssa = .ok form) ↔
          ∀ b, g.Reaches 0 b → Renaming.Declared fn (g.items b)) := by
  refine ⟨?_, fun f => nodeGraph_eq_error hat,
    fun label => ⟨?_, ssa_of_unresolvedLabel⟩, fun g hgraph => ?_⟩
  · intro h
    rcases ssa_error_cases hat h with ⟨label, -, heq⟩ | ⟨r, v, heq⟩
    · cases heq
    · cases heq
  · intro h
    rcases ssa_error_cases hat h with ⟨label', hgraph, heq⟩ | ⟨r, v, heq⟩
    · cases heq
      exact hgraph
    · cases heq
  · obtain ⟨-, -, hstart, -⟩ := exists_checkAccesses hgraph
    exact ⟨hstart, fun f => ssa_eq_error_iff hat hgraph, exists_ssa_iff hat hgraph⟩

/-- Expressions that are not accepted: a return without a slot, a read with two parents, and
accesses to locals that are not declared, one of them after the return. -/
def careless (body : Ref) : Function where
  name := "careless"
  params := [.i32]
  body
  nodes := #[
    { kind := .localGet, type := .i32, index := 9 },
    { kind := .ret },
    { kind := .localGet, type := .i32, index := 0 },
    { kind := .drop, kids := [2] },
    { kind := .block, kids := [3, 1, 0] },
    { kind := .localSet, index := 7, kids := [2] },
    { kind := .block, kids := [5, 4] }]

theorem ssa_outcome_careless :
    (∃ tree : Tree, tree.IsAt (careless 4) (careless 4).body) ∧
      (∃ f, (careless 4).validate = .error f) ∧
      (∃ form, (careless 4).ssa = .ok form ∧ form.graph.items 1 = [0] ∧
        ¬form.graph.Reaches 0 1) ∧
      (∃ tree : Tree, tree.IsAt (careless 6) (careless 6).body) ∧ ∃ g, (careless 6).nodeGraph = .ok g ∧
        g.items 0 = [2, 5, 2, 3, 1] ∧ (∃ b r n, (careless 6).FirstUndeclared g b r n) ∧
        (careless 6).ssa = .error (.within .ssa "careless" (.localIndex "careless" 5 7 1)) := by
  have hat₄ : ∃ tree : Tree, tree.IsAt (careless 4) (careless 4).body :=
    ⟨.node 4 _
        [fun _ => .node 3 _ [fun _ => .node 2 _ []], fun _ => .node 1 _ [], fun _ => .node 0 _ []],
      rfl, rfl, ⟨rfl, rfl, ⟨rfl, rfl, trivial⟩, trivial⟩, ⟨rfl, rfl, trivial⟩, ⟨rfl, rfl, trivial⟩,
      trivial⟩
  have hat₆ : ∃ tree : Tree, tree.IsAt (careless 6) (careless 6).body :=
    ⟨.node 6 _ [fun _ => .node 5 _ [fun _ => .node 2 _ []], fun _ => .node 4 _
        [fun _ => .node 3 _ [fun _ => .node 2 _ []], fun _ => .node 1 _ [], fun _ => .node 0 _ []]],
      rfl, rfl, ⟨rfl, rfl, ⟨rfl, rfl, trivial⟩, trivial⟩, ⟨rfl, rfl, ⟨rfl, rfl, ⟨rfl, rfl, trivial⟩,
        trivial⟩, ⟨rfl, rfl, trivial⟩, ⟨rfl, rfl, trivial⟩, trivial⟩, trivial⟩
  have hinvalid : ∃ f, (careless 4).validate = .error f := ⟨_, by cbv⟩
  obtain ⟨form, hssa₄, hgraph₄, hitems₄⟩ : ∃ form, (careless 4).ssa = .ok form ∧
      (careless 4).nodeGraph = .ok form.graph ∧ form.graph.items 1 = [0] :=
    ⟨_, by cbv, by cbv, rfl⟩
  obtain ⟨g, hgraph₆, hitems₆⟩ : ∃ g, (careless 6).nodeGraph = .ok g ∧ g.items 0 = [2, 5, 2, 3, 1] :=
    ⟨_, by cbv, rfl⟩
  have hssa₆ : (careless 6).ssa = .error (.within .ssa "careless" (.localIndex "careless" 5 7 1)) := by
    cbv
  obtain ⟨tree₄, htree₄⟩ := hat₄
  obtain ⟨tree₆, htree₆⟩ := hat₆
  obtain ⟨-, -, -, hall₄⟩ := ssa_outcome htree₄
  obtain ⟨-, -, -, hall₆⟩ := ssa_outcome htree₆
  have hdead : ¬form.graph.Reaches 0 1 := by
    intro hreach
    have hlt := (hall₄ _ hgraph₄).2.2.mp ⟨form, hssa₄⟩ 1 hreach 0 (by simp [hitems₄]) _ rfl rfl
    exact absurd hlt (by decide)
  obtain ⟨b, r, n, hfirst, -⟩ := ((hall₆ g hgraph₆).2.1 _).mp hssa₆
  exact ⟨⟨tree₄, htree₄⟩, hinvalid, ⟨form, hssa₄, hitems₄, hdead⟩, ⟨tree₆, htree₆⟩, g,
    hgraph₆, hitems₆, ⟨b, r, n, hfirst⟩, hssa₆⟩

end Function

end LocalFlow
