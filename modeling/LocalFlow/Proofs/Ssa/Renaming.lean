import LocalFlow.Proofs.Outcome
import LocalFlow.Proofs.Ssa.Placement
import LocalFlow.Ssa.Renaming

/-! Renaming down the dominator tree. A visit of a block finds on the stacks the definitions that the
block inherits, shows them to the reads and merges of the blocks that it dominates, and leaves the
stacks as it found them. -/

namespace LocalFlow

open Definition

theorem Function.mem_accessesIn {fn : Function} {items : List Ref} {r : Ref} {n : Node} :
    (r, n) ∈ fn.accessesIn items ↔
      r ∈ items ∧ fn.node? r = some n ∧ n.kind.isLocalAccess = true := by
  rw [accessesIn, List.mem_filterMap]
  constructor
  · rintro ⟨r', hr', hx⟩
    split at hx
    · rename_i n' hn'
      split at hx
      · rename_i haccess
        cases hx
        exact ⟨hr', hn', haccess⟩
      · cases hx
    · cases hx
  · rintro ⟨hr, hn, haccess⟩
    exact ⟨r, hr, by simp [hn, haccess]⟩

namespace Renaming

variable {s s' s'' : Renaming} {fn : Function} {g : Graph Ref} {t : DominatorTree} {d : Definition}
  {b c v depth : Nat} {vs vs' : List Nat} {r : Ref}

section Outcomes

theorem top_eq_ok : s.top v = .ok d ↔ ∃ rest, s.reaching[v]? = some (d :: rest) := by
  simp only [top, bind_eq_ok, fetch_eq_ok, found_eq_ok, List.head?_eq_some_iff]
  constructor
  · rintro ⟨stack, hstack, rest, rfl⟩
    exact ⟨rest, hstack⟩
  · rintro ⟨rest, hstack⟩
    exact ⟨_, hstack, rest, rfl⟩

theorem push_eq_ok : s.push d = .ok s' ↔ ∃ stack, s.reaching[d.index]? = some stack ∧
    s' = { s with reaching := s.reaching.setIfInBounds d.index (d :: stack) } := by
  simp only [push, bind_eq_ok, fetch_eq_ok]
  exact exists_congr fun stack => and_congr_right fun _ => ⟨fun h => by cases h; rfl, fun h => h ▸ rfl⟩

theorem pop_eq_ok : s.pop v = .ok s' ↔ ∃ d rest, s.reaching[v]? = some (d :: rest) ∧
    s' = { s with reaching := s.reaching.setIfInBounds v rest } := by
  simp only [pop, bind_eq_ok, fetch_eq_ok]
  constructor
  · rintro ⟨stack, hstack, h⟩
    cases stack with
    | nil => cases h
    | cons d rest =>
      cases h
      exact ⟨d, rest, hstack, rfl⟩
  · rintro ⟨d, rest, hstack, rfl⟩
    exact ⟨_, hstack, rfl⟩

theorem access_cases (h : access fn s r = .ok s') : ∃ n, fn.node? r = some n ∧
    (n.kind.isLocalWrite = true ∧ s.push (.instr r n.index) = .ok s' ∨
      n.kind.isLocalWrite = false ∧ (∃ d, s.top n.index = .ok d ∧
        s' = { s with reads := (r, d) :: s.reads }) ∧ n.kind.isLocalAccess = true ∨
      n.kind.isLocalAccess = false ∧ s' = s) := by
  obtain ⟨n, hn, h⟩ := bind_eq_ok.mp h
  refine ⟨n, Function.node_eq_ok.mp hn, ?_⟩
  split at h
  · exact .inl ⟨‹_›, h⟩
  · rename_i hwrite
    split at h
    · obtain ⟨d, hd, h⟩ := bind_eq_ok.mp h
      cases h
      exact .inr (.inl ⟨Bool.eq_false_iff.mpr hwrite, ⟨d, hd, rfl⟩, ‹_›⟩)
    · rename_i haccess
      cases h
      exact .inr (.inr ⟨Bool.eq_false_iff.mpr haccess, rfl⟩)

/-- Definitions are handed to the merges of a block together, if all of them are there. -/
theorem feed_eq_ok : feed b s c = .ok s' ↔ ∃ current : Nat → Definition,
    (∀ phi ∈ s.phisAt c, s.top phi.index = .ok (current phi.index)) ∧ s' = { s with
      phis := s.phis.setIfInBounds c
        ((s.phisAt c).map fun phi => phi.setIncoming b (current phi.index)) } := by
  have hmap : ∀ {current : Nat → Definition},
      (∀ phi ∈ s.phisAt c, s.top phi.index = .ok (current phi.index)) →
        (s.phisAt c).mapM (fun phi => return phi.setIncoming b (← s.top phi.index)) =
          .ok ((s.phisAt c).map fun phi => phi.setIncoming b (current phi.index)) := by
    intro current htops
    refine mapM_eq_map fun phi hphi => ?_
    rw [htops phi hphi]
    rfl
  constructor
  · intro h
    obtain ⟨filled, hfilled, h⟩ := bind_eq_ok.mp h
    have htops : ∀ phi ∈ s.phisAt c, ∃ d, s.top phi.index = .ok d := by
      intro phi hphi
      obtain ⟨_, hphi⟩ := exists_of_mapM hfilled phi hphi
      obtain ⟨d, hd, -⟩ := bind_eq_ok.mp hphi
      exact ⟨d, hd⟩
    have hcurrent : ∀ v, ∃ d, ∀ d', s.top v = .ok d' → d' = d := by
      intro v
      cases s.top v with
      | error f => exact ⟨.zero v, nofun⟩
      | ok d => exact ⟨d, fun d' hd' => (Except.ok.inj hd').symm⟩
    obtain ⟨current, hcurrent⟩ := Classical.axiomOfChoice hcurrent
    have hall : ∀ phi ∈ s.phisAt c, s.top phi.index = .ok (current phi.index) := by
      intro phi hphi
      obtain ⟨d, hd⟩ := htops phi hphi
      rw [hd, hcurrent _ _ hd]
    rw [hmap hall] at hfilled
    cases hfilled
    cases h
    exact ⟨current, hall, rfl⟩
  · rintro ⟨current, hall, rfl⟩
    rw [feed, hmap hall]
    rfl

theorem enterBlock_eq_ok : enterBlock fn g b s = .ok s' ↔ b < g.size ∧ ∃ s₁ s₂,
    (s.phisAt b).foldlM (fun s phi => s.push phi.definition)
        { s with visited := b :: s.visited } = .ok s₁ ∧
      (g.items b).foldlM (access fn) s₁ = .ok s₂ ∧ (g.succ b).foldlM (feed b) s₂ = .ok s' := by
  simp only [enterBlock, bind_eq_ok, fetch_eq_ok]
  constructor
  · rintro ⟨block, hblock, s₁, hmerges, s₂, hitems, hsucc⟩
    have hlt := (Array.getElem?_eq_some_iff.mp hblock).1
    refine ⟨hlt, s₁, s₂, hmerges, ?_, ?_⟩
    · simpa [Graph.items, hblock] using hitems
    · simpa [Graph.succ, hblock] using hsucc
  · rintro ⟨hb, s₁, s₂, hmerges, hitems, hsucc⟩
    have hblock := Array.getElem?_eq_getElem hb
    refine ⟨_, hblock, s₁, hmerges, s₂, ?_, ?_⟩
    · simpa [Graph.items, hblock] using hitems
    · simpa [Graph.succ, hblock] using hsucc

theorem visit_succ_eq_ok : visit fn g t (depth + 1) b s = .ok s' ↔ ∃ s₁ s₂,
    enterBlock fn g b s = .ok s₁ ∧
      (t.children b).foldlM (fun s c => visit fn g t depth c s) s₁ = .ok s₂ ∧
      (pushedIn fn g b s).foldlM pop s₂ = .ok s' := by
  simp only [visit, bind_eq_ok, exists_and_left]

/-- What is kept when a block is entered and when a stack is popped, a visit keeps. -/
theorem visit_keeps {P : Renaming → Prop}
    (henter : ∀ {b s s'}, enterBlock fn g b s = .ok s' → P s → P s')
    (hpop : ∀ {v s s'}, pop s v = .ok s' → P s → P s') (h : visit fn g t depth b s = .ok s')
    (hs : P s) : P s' := by
  induction depth generalizing b s s' with
  | zero => cases h
  | succ depth ih =>
    obtain ⟨s₁, s₂, hb, hbelow, hpops⟩ := visit_succ_eq_ok.mp h
    exact foldlM_keeps (fun _ _ _ _ => hpop) hpops
      (foldlM_keeps (fun _ _ _ _ => ih) hbelow (henter hb hs))

end Outcomes

section Stacks

def Restacks (s s' : Renaming) : Prop := ∃ reaching, s' = { s with reaching }

theorem Restacks.trans (h : Restacks s s') (h' : Restacks s' s'') : Restacks s s'' := by
  obtain ⟨_, rfl⟩ := h
  obtain ⟨reaching, rfl⟩ := h'
  exact ⟨reaching, rfl⟩

theorem restacks_push (h : s.push d = .ok s') : Restacks s s' := by
  obtain ⟨stack, -, rfl⟩ := push_eq_ok.mp h
  exact ⟨_, rfl⟩

theorem restacks_pop (h : s.pop v = .ok s') : Restacks s s' := by
  obtain ⟨d, rest, -, rfl⟩ := pop_eq_ok.mp h
  exact ⟨_, rfl⟩

theorem restacks_merges {phis : List Phi}
    (h : phis.foldlM (fun s phi => s.push phi.definition) s = .ok s') : Restacks s s' :=
  foldlM_keeps (fun _ _ _ _ hpush hs => hs.trans (restacks_push hpush)) h ⟨_, rfl⟩

theorem restacks_pops (h : vs.foldlM pop s = .ok s') : Restacks s s' :=
  foldlM_keeps (fun _ _ _ _ hpop hs => hs.trans (restacks_pop hpop)) h ⟨_, rfl⟩

theorem phis_access (h : access fn s r = .ok s') : s'.phis = s.phis := by
  obtain ⟨n, -, ⟨-, hpush⟩ | ⟨-, ⟨d, -, rfl⟩, -⟩ | ⟨-, rfl⟩⟩ := access_cases h
  · obtain ⟨_, rfl⟩ := restacks_push hpush
    rfl
  · rfl
  · rfl

theorem phis_accesses {items : List Ref} (h : items.foldlM (access fn) s = .ok s') :
    s'.phis = s.phis :=
  foldlM_keeps (P := fun x => x.phis = s.phis) (fun _ _ _ _ haccess hs => (phis_access haccess).trans hs)
    h rfl

/-- On the way from `s` to `s'` each local in `vs` was pushed once for each time that it occurs. -/
def Raised (vs : List Nat) (s s' : Renaming) : Prop :=
  ∀ v, ∃ pushed : List Definition, pushed.length = vs.count v ∧
    s'.reaching[v]? = s.reaching[v]?.map (pushed ++ ·)

theorem Raised.of_reaching_eq (h : s'.reaching = s.reaching) : Raised [] s s' :=
  fun v => ⟨[], by simp, by simp [h]⟩

theorem Raised.reaching_eq (h : Raised [] s s') : s'.reaching = s.reaching := by
  apply Array.ext_getElem?
  intro v
  obtain ⟨pushed, hlength, hstack⟩ := h v
  obtain rfl := List.length_eq_zero_iff.mp hlength
  simpa using hstack

theorem Raised.trans (h : Raised vs s s') (h' : Raised vs' s' s'') : Raised (vs ++ vs') s s'' := by
  intro v
  obtain ⟨pushed, hlength, hstack⟩ := h v
  obtain ⟨pushed', hlength', hstack'⟩ := h' v
  refine ⟨pushed' ++ pushed, ?_, ?_⟩
  · rw [List.length_append, List.count_append, hlength, hlength', Nat.add_comm]
  · rw [hstack', hstack, Option.map_map]
    simp [Function.comp_def]

theorem Raised.push (h : s.push d = .ok s') : Raised [d.index] s s' := by
  obtain ⟨stack, hstack, rfl⟩ := push_eq_ok.mp h
  have hlt := (Array.getElem?_eq_some_iff.mp hstack).1
  intro v
  by_cases hv : d.index = v
  · subst hv
    exact ⟨[d], by simp, by simp [hstack, Array.getElem?_setIfInBounds_self_of_lt hlt]⟩
  · refine ⟨[], ?_, ?_⟩
    · rw [List.count_singleton, if_neg (by simpa using hv), List.length_nil]
    · simp [Array.getElem?_setIfInBounds_ne hv]

theorem Raised.merges {phis : List Phi}
    (h : phis.foldlM (fun s phi => s.push phi.definition) s = .ok s') :
    Raised (phis.map (·.index)) s s' := by
  induction phis generalizing s with
  | nil =>
    cases h
    exact .of_reaching_eq rfl
  | cons phi phis ih =>
    obtain ⟨s₁, hphi, hphis⟩ := foldlM_cons_eq_ok.mp h
    exact (Raised.push hphi).trans (ih hphis)

def writesOf (fn : Function) (items : List Ref) : List Nat :=
  ((fn.accessesIn items).filter fun (_, n) => n.kind.isLocalWrite).map (·.2.index)

theorem writesOf_cons (fn : Function) (r : Ref) (items : List Ref) :
    writesOf fn (r :: items) = writesOf fn [r] ++ writesOf fn items := by
  rw [writesOf, Function.accessesIn, ← List.singleton_append, List.filterMap_append,
    List.filter_append, List.map_append]
  rfl

theorem Raised.access (h : access fn s r = .ok s') : Raised (writesOf fn [r]) s s' := by
  obtain ⟨n, hn, ⟨hwrite, hpush⟩ | ⟨hwrite, ⟨d, -, rfl⟩, -⟩ | ⟨haccess, rfl⟩⟩ := access_cases h
  · have heq : writesOf fn [r] = [n.index] := by
      simp [writesOf, Function.accessesIn, hn, hwrite, Kind.isLocalAccess_of_isLocalWrite hwrite]
    exact heq ▸ Raised.push hpush
  · have heq : writesOf fn [r] = [] := by
      cases haccess : n.kind.isLocalAccess <;>
        simp [writesOf, Function.accessesIn, hn, hwrite, haccess]
    exact heq ▸ .of_reaching_eq rfl
  · have heq : writesOf fn [r] = [] := by simp [writesOf, Function.accessesIn, hn, haccess]
    exact heq ▸ .of_reaching_eq rfl

theorem Raised.accesses {items : List Ref} (h : items.foldlM (Renaming.access fn) s = .ok s') :
    Raised (writesOf fn items) s s' := by
  induction items generalizing s with
  | nil =>
    cases h
    exact .of_reaching_eq rfl
  | cons r items ih =>
    obtain ⟨s₁, hr, hitems⟩ := foldlM_cons_eq_ok.mp h
    rw [writesOf_cons]
    exact (Raised.access hr).trans (ih hitems)

theorem reaching_feeds {succs : List Nat} (h : succs.foldlM (feed b) s = .ok s') :
    s'.reaching = s.reaching := by
  refine foldlM_keeps (P := fun x => x.reaching = s.reaching) (fun c _ x x' hfeed hx => ?_) h rfl
  obtain ⟨current, -, rfl⟩ := feed_eq_ok.mp hfeed
  exact hx

/-- A block pushes what it pops at the end, whatever is on the stacks. -/
theorem Raised.enterBlock (h : enterBlock fn g b s = .ok s') : Raised (pushedIn fn g b s) s s' := by
  obtain ⟨-, s₁, s₂, hmerges, hitems, hsucc⟩ := enterBlock_eq_ok.mp h
  have hall := ((Raised.merges hmerges).trans (.accesses hitems)).trans
    (.of_reaching_eq (reaching_feeds hsucc))
  rw [List.append_nil] at hall
  exact hall

/-- Popping takes back the last push. -/
theorem Raised.pop (h : Raised (v :: vs) s s') (hpop : s'.pop v = .ok s'') : Raised vs s s'' := by
  obtain ⟨d, rest, hrest, rfl⟩ := pop_eq_ok.mp hpop
  have hlt := (Array.getElem?_eq_some_iff.mp hrest).1
  intro w
  obtain ⟨pushed, hlength, hstack⟩ := h w
  by_cases hvw : v = w
  · subst hvw
    rw [List.count_cons_self] at hlength
    obtain ⟨d', pushed, rfl⟩ := List.exists_cons_of_length_eq_add_one hlength
    refine ⟨pushed, by simpa using hlength, ?_⟩
    rw [Array.getElem?_setIfInBounds_self_of_lt hlt]
    rw [hrest] at hstack
    obtain ⟨stack, hold, heq⟩ := Option.map_eq_some_iff.mp hstack.symm
    rw [List.cons_append] at heq
    simp [hold, (List.cons.inj heq).2]
  · rw [List.count_cons_of_ne hvw] at hlength
    exact ⟨pushed, hlength, by rw [Array.getElem?_setIfInBounds_ne hvw, hstack]⟩

theorem Raised.pops (h : Raised vs s s') (hpops : vs.foldlM Renaming.pop s' = .ok s'') :
    s''.reaching = s.reaching := by
  induction vs generalizing s' with
  | nil =>
    cases hpops
    exact h.reaching_eq
  | cons v vs ih =>
    obtain ⟨s₁, hpop, hpops⟩ := foldlM_cons_eq_ok.mp hpops
    exact ih (h.pop hpop) hpops

/-- Children that leave the stacks as they were leave them as high as their parent has raised them. -/
theorem Raised.children {s₁ s₂ : Renaming} (hb : Renaming.enterBlock fn g b s = .ok s₁)
    (hvisit : ∀ {c s s'}, visit fn g t depth c s = .ok s' → s'.reaching = s.reaching)
    (hbelow : (t.children b).foldlM (fun s c => visit fn g t depth c s) s₁ = .ok s₂) :
    Raised (pushedIn fn g b s) s s₂ := by
  have heq : s₂.reaching = s₁.reaching := foldlM_keeps (P := fun x => x.reaching = s₁.reaching)
    (fun _ _ _ _ hchild hx => (hvisit hchild).trans hx) hbelow rfl
  have hall := (Raised.enterBlock hb).trans (.of_reaching_eq heq)
  rw [List.append_nil] at hall
  exact hall

/-- A visit to any depth and from any state restores the stacks. -/
theorem reaching_visit (h : visit fn g t depth b s = .ok s') : s'.reaching = s.reaching := by
  induction depth generalizing b s s' with
  | zero => cases h
  | succ depth ih =>
    obtain ⟨s₁, s₂, hb, hbelow, hpops⟩ := visit_succ_eq_ok.mp h
    exact (Raised.children hb ih hbelow).pops hpops

/-- The current definitions of the first `n` locals. -/
structure Carries (n : Nat) (current : Nat → Definition) (s : Renaming) : Prop where
  size_eq : s.reaching.size = n
  top : ∀ {v}, v < n → s.top v = .ok (current v)

variable {n : Nat} {current current' : Nat → Definition}

namespace Carries

theorem congr (h : s.Carries n current) (heq : s'.reaching = s.reaching) : s'.Carries n current := by
  refine ⟨heq ▸ h.size_eq, fun {v} hv => ?_⟩
  rw [Renaming.top, heq]
  exact h.top hv

theorem imp (h : s.Carries n current) (heq : ∀ v < n, current v = current' v) :
    s.Carries n current' :=
  ⟨h.size_eq, fun {v} hv => heq v hv ▸ h.top hv⟩

/-- A definition that is on top of a stack is the current one of a local among the first `n`. -/
theorem eq_of_top (h : s.Carries n current) (hd : s.top v = .ok d) : v < n ∧ d = current v := by
  obtain ⟨rest, hstack⟩ := top_eq_ok.mp hd
  have hlt : v < n := h.size_eq ▸ (Array.getElem?_eq_some_iff.mp hstack).1
  exact ⟨hlt, Except.ok.inj (hd.symm.trans (h.top hlt))⟩

theorem push (h : s.Carries n current) (hpush : s.push d = .ok s') :
    s'.Carries n fun v => if d.index = v then d else current v := by
  obtain ⟨stack, hstack, rfl⟩ := push_eq_ok.mp hpush
  have hlt := (Array.getElem?_eq_some_iff.mp hstack).1
  refine ⟨Array.size_setIfInBounds.trans h.size_eq, fun {v} hv => ?_⟩
  by_cases hdv : d.index = v
  · subst hdv
    rw [if_pos rfl]
    exact top_eq_ok.mpr ⟨stack, Array.getElem?_setIfInBounds_self_of_lt hlt⟩
  · obtain ⟨rest, hrest⟩ := top_eq_ok.mp (h.top hv)
    rw [if_neg hdv]
    exact top_eq_ok.mpr ⟨rest, (Array.getElem?_setIfInBounds_ne hdv).trans hrest⟩

end Carries

end Stacks

end Renaming

/-- The read at `r` sees `d` in a block that it is recorded in. -/
def Function.Sees (fn : Function) (g : Graph Ref) (t : DominatorTree) (merges : Nat → Nat → Bool)
    (r : Ref) (d : Definition) : Prop :=
  ∃ b before rest n d₀, g.items b = before ++ r :: rest ∧ fn.node? r = some n ∧
    fn.Inherits g t (merges n.index) n.index b d₀ ∧
    d = before.foldl (after fn n.index) (enter (merges n.index) n.index d₀ b)

/-- Block `p` brings definition `d` of `v` to its successors. -/
def Function.Brings (fn : Function) (g : Graph Ref) (t : DominatorTree)
    (merges : Nat → Nat → Bool) (v p : Nat) (d : Definition) : Prop :=
  ∃ d₀, fn.Inherits g t (merges v) v p d₀ ∧ d = across fn g (merges v) v d₀ p

namespace Phi

variable {p q : Nat} {d d' : Definition} {entries : List (Nat × Definition)}

theorem mem_place (h : (q, d') ∈ place p d entries) : (q = p ∧ d' = d) ∨ (q, d') ∈ entries := by
  induction entries with
  | nil => simpa [place] using h
  | cons entry entries ih =>
    rw [place] at h
    split at h
    · simpa using h
    · split at h
      · rcases List.mem_cons.mp h with h | h
        · exact .inl (Prod.mk.inj h)
        · exact .inr (.tail _ h)
      · rcases List.mem_cons.mp h with h | h
        · exact .inr (h ▸ .head _)
        · exact (ih h).imp_right (.tail _)

theorem place_self_mem : (p, d) ∈ place p d entries := by
  induction entries with
  | nil => simp [place]
  | cons entry entries ih =>
    rw [place]
    split
    · exact .head _
    · split
      · exact .head _
      · exact .tail _ ih

/-- A predecessor that has a definition keeps one. -/
theorem exists_mem_place (h : (q, d') ∈ entries) : ∃ d₁, (q, d₁) ∈ place p d entries := by
  induction entries with
  | nil => simp at h
  | cons entry entries ih =>
    rw [place]
    split
    · exact ⟨d', .tail _ h⟩
    · split
      · rename_i hpe
        rcases List.mem_cons.mp h with rfl | h
        · exact ⟨d, by simp [hpe]⟩
        · exact ⟨d', .tail _ h⟩
      · rcases List.mem_cons.mp h with rfl | h
        · exact ⟨d', .head _⟩
        · obtain ⟨d₁, hd₁⟩ := ih h
          exact ⟨d₁, .tail _ hd₁⟩

end Phi

namespace Renaming

variable {s s' s'' : Renaming} {fn : Function} {g : Graph Ref} {t : DominatorTree}
  {merges : Nat → Nat → Bool} {b c depth : Nat}

def Fed (s : Renaming) (p c : Nat) : Prop := ∀ phi ∈ s.phisAt c, ∃ d, (p, d) ∈ phi.incoming

structure Grows (s s' : Renaming) : Prop where
  reads : ∀ x ∈ s.reads, x ∈ s'.reads
  fed : ∀ {p c}, s.Fed p c → s'.Fed p c

theorem Grows.refl (s : Renaming) : s.Grows s := ⟨fun _ h => h, fun h => h⟩

theorem Grows.trans (h : s.Grows s') (h' : s'.Grows s'') : s.Grows s'' :=
  ⟨fun x hx => h'.reads x (h.reads x hx), fun hfed => h'.fed (h.fed hfed)⟩

/-- Every merge is at its place, and every read and merge has a definition that reaches it. -/
structure Sound (fn : Function) (g : Graph Ref) (t : DominatorTree) (merges : Nat → Nat → Bool)
    (s : Renaming) : Prop where
  mem_definitions : ∀ {b d}, d ∈ (s.phisAt b).map Phi.definition ↔
    ∃ v, merges v b = true ∧ d = .phi b v
  reads : ∀ {r d}, (r, d) ∈ s.reads → fn.Sees g t merges r d
  incoming : ∀ {c phi p d}, phi ∈ s.phisAt c → (p, d) ∈ phi.incoming →
    fn.Brings g t merges phi.index p d

theorem Sound.merges_of_mem (h : s.Sound fn g t merges) {phi : Phi} (hphi : phi ∈ s.phisAt b) :
    merges phi.index b = true := by
  obtain ⟨v, hv, heq⟩ := h.mem_definitions.mp (List.mem_map_of_mem hphi)
  obtain ⟨-, rfl⟩ := Definition.phi.inj heq
  exact hv

/-- The stacks do not matter for what is recorded. -/
theorem Grows.of_eq (hphis : s'.phis = s.phis) (hreads : s'.reads = s.reads) : s.Grows s' := by
  refine ⟨fun x hx => hreads ▸ hx, fun {p c} h => ?_⟩
  rw [Fed, phisAt, hphis]
  exact h

theorem Sound.congr (h : s.Sound fn g t merges) (hphis : s'.phis = s.phis)
    (hreads : s'.reads = s.reads) : s'.Sound fn g t merges := by
  have hat : ∀ b, s'.phisAt b = s.phisAt b := fun b => by rw [phisAt, hphis, phisAt]
  refine ⟨?_, ?_, ?_⟩
  · intro b d
    rw [hat]
    exact h.mem_definitions
  · intro r d hmem
    exact h.reads (hreads ▸ hmem)
  · intro c phi p d hphi hmem
    exact h.incoming (hat c ▸ hphi) hmem

/-- A step from `s` to `s'` that makes `current` the current definitions. -/
structure Advances (fn : Function) (g : Graph Ref) (t : DominatorTree) (merges : Nat → Nat → Bool)
    (current : Nat → Definition) (s s' : Renaming) : Prop where
  sound : s'.Sound fn g t merges
  carries : s'.Carries fn.numLocals current
  grows : s.Grows s'

theorem Advances.trans {current current' : Nat → Definition}
    (h : Advances fn g t merges current s s') (h' : Advances fn g t merges current' s' s'') :
    Advances fn g t merges current' s s'' :=
  ⟨h'.sound, h'.carries, h.grows.trans h'.grows⟩

theorem advances_push {current : Nat → Definition} {d : Definition} (h : s.Sound fn g t merges)
    (hc : s.Carries fn.numLocals current) (hpush : s.push d = .ok s') :
    Advances fn g t merges (fun v => if d.index = v then d else current v) s s' := by
  have hcarries := hc.push hpush
  obtain ⟨_, rfl⟩ := restacks_push hpush
  exact ⟨h.congr rfl rfl, hcarries, .of_eq rfl rfl⟩

/-- The definitions that a block starts with are its merges and what it inherits. -/
theorem advances_merges {phis : List Phi} {current : Nat → Definition}
    (h : s.Sound fn g t merges) (hc : s.Carries fn.numLocals current)
    (hphis : ∀ phi ∈ phis, phi.block = b)
    (hok : phis.foldlM (fun s phi => s.push phi.definition) s = .ok s') :
    Advances fn g t merges
      (fun v => if .phi b v ∈ phis.map Phi.definition then .phi b v else current v) s s' := by
  induction phis generalizing s current with
  | nil =>
    cases hok
    exact ⟨h, hc.imp fun v _ => by simp, .refl _⟩
  | cons phi phis ih =>
    obtain ⟨s₁, hphi, hrest⟩ := foldlM_cons_eq_ok.mp hok
    have hdef : phi.definition = .phi b phi.index := by rw [Phi.definition, hphis phi (by simp)]
    have hfirst := advances_push h hc hphi
    have hboth := hfirst.trans
      (ih hfirst.sound hfirst.carries (fun phi hphi => hphis phi (.tail _ hphi)) hrest)
    refine ⟨hboth.sound, hboth.carries.imp fun v _ => ?_, hboth.grows⟩
    by_cases hv : phi.index = v
    · simp [hdef, hv, index]
    · simp [hdef, hv, Ne.symm hv, index]

section Accesses

def Declared (fn : Function) (items : List Ref) : Prop :=
  ∀ r ∈ items, ∀ n, fn.node? r = some n → n.kind.isLocalAccess = true → n.index < fn.numLocals

variable {inherited : Nat → Definition} {before rest : List Ref} {r : Ref}

def within (fn : Function) (merges : Nat → Nat → Bool) (b : Nat) (inherited : Nat → Definition)
    (before : List Ref) (v : Nat) : Definition :=
  before.foldl (after fn v) (enter (merges v) v (inherited v) b)

theorem within_snoc (fn : Function) (merges : Nat → Nat → Bool) (b : Nat)
    (inherited : Nat → Definition) (before : List Ref) (r : Ref) (v : Nat) :
    within fn merges b inherited (before ++ [r]) v =
      after fn v (within fn merges b inherited before v) r := by
  rw [within, List.foldl_append]
  rfl

theorem advances_access (h : s.Sound fn g t merges)
    (hc : s.Carries fn.numLocals (within fn merges b inherited before))
    (hitems : g.items b = before ++ r :: rest)
    (hinherited : ∀ v < fn.numLocals, fn.Inherits g t (merges v) v b (inherited v))
    (hok : access fn s r = .ok s') :
    Advances fn g t merges (within fn merges b inherited (before ++ [r])) s s' ∧
      ∀ n, fn.node? r = some n → n.kind = .localGet → ∃ d, (r, d) ∈ s'.reads := by
  obtain ⟨n, hn, ⟨hwrite, hpush⟩ | ⟨hwrite, ⟨d, hd, rfl⟩, -⟩ | ⟨haccess, rfl⟩⟩ := access_cases hok
  · have hstep := advances_push h hc hpush
    refine ⟨⟨hstep.sound, hstep.carries.imp fun v _ => ?_, hstep.grows⟩, fun n' hn' hget => ?_⟩
    · rw [within_snoc, after_of_node? hn]
      by_cases hv : n.index = v
      · simp [hv, hwrite, index]
      · simp [hv, index]
    · obtain rfl : n = n' := Option.some.inj (hn.symm.trans hn')
      simp [hget, Kind.isLocalWrite] at hwrite
  · obtain ⟨hlt, rfl⟩ := hc.eq_of_top hd
    have hsees : fn.Sees g t merges r (within fn merges b inherited before n.index) :=
      ⟨b, before, rest, n, _, hitems, hn, hinherited _ hlt, rfl⟩
    refine ⟨⟨⟨h.mem_definitions, ?_, h.incoming⟩, ?_, ⟨?_, fun h => h⟩⟩, fun _ _ _ => ⟨_, .head _⟩⟩
    · intro r' d hmem
      rcases List.mem_cons.mp hmem with heq | hmem
      · obtain ⟨rfl, rfl⟩ := Prod.mk.inj heq
        exact hsees
      · exact h.reads hmem
    · refine Carries.imp (hc.congr rfl) fun v _ => ?_
      simp [within_snoc, after_of_node? hn, hwrite]
    · exact fun x hx => .tail _ hx
  · have hwrite : n.kind.isLocalWrite = false := Bool.eq_false_iff.mpr fun hwrite =>
      absurd (Kind.isLocalAccess_of_isLocalWrite hwrite) (by simp [haccess])
    refine ⟨⟨h, hc.imp fun v _ => ?_, .refl s'⟩, fun n' hn' hget => ?_⟩
    · simp [within_snoc, after_of_node? hn, hwrite]
    · obtain rfl : n = n' := Option.some.inj (hn.symm.trans hn')
      simp [hget, Kind.isLocalAccess] at haccess

theorem advances_accesses (h : s.Sound fn g t merges)
    (hc : s.Carries fn.numLocals (within fn merges b inherited before))
    (hitems : g.items b = before ++ rest)
    (hinherited : ∀ v < fn.numLocals, fn.Inherits g t (merges v) v b (inherited v))
    (hok : rest.foldlM (access fn) s = .ok s') :
    Advances fn g t merges (within fn merges b inherited (g.items b)) s s' ∧
      ∀ r ∈ rest, ∀ n, fn.node? r = some n → n.kind = .localGet → ∃ d, (r, d) ∈ s'.reads := by
  induction rest generalizing before s with
  | nil =>
    cases hok
    rw [hitems, List.append_nil]
    exact ⟨⟨h, hc, .refl _⟩, by simp⟩
  | cons r rest ih =>
    obtain ⟨s₁, hr, hrest⟩ := foldlM_cons_eq_ok.mp hok
    obtain ⟨hfirst, hread⟩ := advances_access h hc hitems hinherited hr
    obtain ⟨hadv, hseen⟩ := ih hfirst.sound hfirst.carries (by simp [hitems]) hrest
    refine ⟨hfirst.trans hadv, fun r' hr' n hn hget => ?_⟩
    rcases List.mem_cons.mp hr' with rfl | hr'
    · obtain ⟨d, hd⟩ := hread n hn hget
      exact ⟨d, hadv.grows.reads _ hd⟩
    · exact hseen r' hr' n hn hget

end Accesses

section Feeding

theorem phisAt_setIfInBounds (s : Renaming) (c x : Nat) (f : Phi → Phi) :
    { s with phis := s.phis.setIfInBounds c ((s.phisAt c).map f) }.phisAt x =
      if c = x then (s.phisAt x).map f else s.phisAt x := by
  simp only [phisAt, Array.getD_eq_getD_getElem?, Array.getElem?_setIfInBounds]
  by_cases hcx : c = x
  · subst hcx
    by_cases hlt : c < s.phis.size
    · simp [hlt]
    · simp [hlt]
  · simp [hcx]

variable {current : Nat → Definition}

theorem advances_feed (h : s.Sound fn g t merges) (hc : s.Carries fn.numLocals current)
    (hbrings : ∀ v < fn.numLocals, fn.Brings g t merges v b (current v))
    (hok : feed b s c = .ok s') : Advances fn g t merges current s s' ∧ s'.Fed b c := by
  obtain ⟨tops, htops, rfl⟩ := feed_eq_ok.mp hok
  have hat := phisAt_setIfInBounds s c (f := fun phi => phi.setIncoming b (tops phi.index))
  refine ⟨⟨⟨?_, h.reads, ?_⟩, hc.congr rfl, ⟨fun _ h => h, ?_⟩⟩, ?_⟩
  · intro x d
    rw [← h.mem_definitions, hat]
    split
    · rw [List.map_map]
      exact Iff.rfl
    · exact Iff.rfl
  · intro x phi p d hphi hmem
    rw [hat] at hphi
    split at hphi
    · rename_i hcx
      subst hcx
      obtain ⟨phi, hold, rfl⟩ := List.mem_map.mp hphi
      change fn.Brings g t merges phi.index p d
      rcases Phi.mem_place hmem with ⟨rfl, rfl⟩ | hmem
      · obtain ⟨hlt, heq⟩ := hc.eq_of_top (htops phi hold)
        exact heq ▸ hbrings _ hlt
      · exact h.incoming hold hmem
    · exact h.incoming hphi hmem
  · intro p x hpx phi hphi
    rw [hat] at hphi
    split at hphi
    · obtain ⟨phi, hold, rfl⟩ := List.mem_map.mp hphi
      obtain ⟨d, hd⟩ := hpx phi hold
      exact Phi.exists_mem_place hd
    · exact hpx phi hphi
  · intro phi hphi
    rw [hat, if_pos rfl] at hphi
    obtain ⟨phi, -, rfl⟩ := List.mem_map.mp hphi
    exact ⟨_, Phi.place_self_mem⟩

theorem advances_feeds {succs : List Nat} (h : s.Sound fn g t merges)
    (hc : s.Carries fn.numLocals current)
    (hbrings : ∀ v < fn.numLocals, fn.Brings g t merges v b (current v))
    (hok : succs.foldlM (feed b) s = .ok s') :
    Advances fn g t merges current s s' ∧ ∀ c ∈ succs, s'.Fed b c := by
  induction succs generalizing s with
  | nil =>
    cases hok
    exact ⟨⟨h, hc, .refl _⟩, by simp⟩
  | cons c succs ih =>
    obtain ⟨s₁, hfeed, hsuccs⟩ := foldlM_cons_eq_ok.mp hok
    obtain ⟨hfirst, hfed⟩ := advances_feed h hc hbrings hfeed
    obtain ⟨hrest, hall⟩ := ih hfirst.sound hfirst.carries hsuccs
    refine ⟨hfirst.trans hrest, fun x hx => ?_⟩
    rcases List.mem_cons.mp hx with rfl | hx
    · exact hrest.grows.fed hfed
    · exact hall x hx

end Feeding

section Visiting

structure Covers (fn : Function) (g : Graph Ref) (b : Nat) (s : Renaming) : Prop where
  reads : ∀ r ∈ g.items b, ∀ n, fn.node? r = some n → n.kind = .localGet → ∃ d, (r, d) ∈ s.reads
  fed : ∀ c ∈ g.succ b, s.Fed b c

theorem Covers.grows (h : s.Covers fn g b) (hgrows : s.Grows s') : s'.Covers fn g b := by
  refine ⟨fun r hr n hn hget => ?_, fun c hc => hgrows.fed (h.fed c hc)⟩
  obtain ⟨d, hd⟩ := h.reads r hr n hn hget
  exact ⟨d, hgrows.reads _ hd⟩

variable {inherited : Nat → Definition}

/-- The block is entered with the definitions that it inherits. -/
structure Enters (fn : Function) (g : Graph Ref) (t : DominatorTree) (merges : Nat → Nat → Bool)
    (b : Nat) (inherited : Nat → Definition) (s : Renaming) : Prop where
  sound : s.Sound fn g t merges
  carries : s.Carries fn.numLocals inherited
  inherits : ∀ v < fn.numLocals, fn.Inherits g t (merges v) v b (inherited v)

theorem enterBlock_spec (h : s.Enters fn g t merges b inherited)
    (hok : enterBlock fn g b s = .ok s') :
    Advances fn g t merges (fun v => across fn g (merges v) v (inherited v) b) s s' ∧
      s'.Covers fn g b := by
  obtain ⟨hsound, hcarries, hinherits⟩ := h
  obtain ⟨-, s₁, s₂, hmerges, hitems, hsucc⟩ := enterBlock_eq_ok.mp hok
  have hblock : ∀ phi ∈ s.phisAt b, phi.block = b := by
    intro phi hphi
    obtain ⟨v, -, heq⟩ := hsound.mem_definitions.mp (List.mem_map_of_mem hphi)
    exact (Definition.phi.inj heq).1
  have hstart := advances_merges (s := { s with visited := b :: s.visited })
    (hsound.congr rfl rfl) (hcarries.congr rfl) hblock hmerges
  have hentered : Carries fn.numLocals (within fn merges b inherited []) s₁ :=
    hstart.carries.imp fun v _ => by simp [within, enter, hsound.mem_definitions]
  obtain ⟨hnodes, hreads⟩ := advances_accesses hstart.sound hentered rfl hinherits hitems
  obtain ⟨hfeed, hfed⟩ := advances_feeds hnodes.sound hnodes.carries
    (fun v hv => ⟨inherited v, hinherits v hv, rfl⟩) hsucc
  have hall := (hstart.trans hnodes).trans hfeed
  refine ⟨⟨hall.sound, hall.carries, hall.grows.reads, hall.grows.fed⟩, fun r hr n hn hget => ?_, hfed⟩
  obtain ⟨d, hd⟩ := hreads r hr n hn hget
  exact ⟨d, hfeed.grows.reads _ hd⟩

/-- On the way from `s` to `s'` the blocks below those in `roots` are covered. -/
structure Visits (fn : Function) (g : Graph Ref) (t : DominatorTree) (merges : Nat → Nat → Bool)
    (e : Nat) (roots : List Nat) (s s' : Renaming) : Prop where
  sound : s'.Sound fn g t merges
  grows : s.Grows s'
  covers : ∀ b ∈ roots, ∀ x, g.Dominates e b x → s'.Covers fn g x

theorem visits_roots {e : Nat} {roots : List Nat}
    (hroots : ∀ c ∈ roots, ∀ {s s'}, s.Enters fn g t merges c inherited →
      visit fn g t depth c s = .ok s' → Visits fn g t merges e [c] s s')
    (hinherits : ∀ c ∈ roots, ∀ v < fn.numLocals, fn.Inherits g t (merges v) v c (inherited v))
    (hs : s.Sound fn g t merges) (hc : s.Carries fn.numLocals inherited)
    (hok : roots.foldlM (fun s c => visit fn g t depth c s) s = .ok s') :
    Visits fn g t merges e roots s s' := by
  induction roots generalizing s with
  | nil =>
    cases hok
    exact ⟨hs, .refl _, by simp⟩
  | cons c roots ih =>
    obtain ⟨s₁, hvisit, hvisits⟩ := foldlM_cons_eq_ok.mp hok
    have hfirst := hroots c (by simp) ⟨hs, hc, hinherits c (by simp)⟩ hvisit
    have hrest := ih (fun c hc => hroots c (.tail _ hc)) (fun c hc => hinherits c (.tail _ hc))
      hfirst.sound (hc.congr (reaching_visit hvisit)) hvisits
    refine ⟨hrest.sound, hfirst.grows.trans hrest.grows, fun b hb x hx => ?_⟩
    rcases List.mem_cons.mp hb with rfl | hb
    · exact (hfirst.covers b (by simp) x hx).grows hrest.grows
    · exact hrest.covers b hb x hx

/-- What a block brings to its end is what its children inherit. -/
theorem Enters.inherits_child {e v : Nat} (h : s.Enters fn g t merges b inherited)
    (ht : g.IsDominatorTree e t) (hg : g.Mirrored) (he : e < g.size) (hc : c ∈ t.children b)
    (hv : v < fn.numLocals) :
    fn.Inherits g t (merges v) v c (across fn g (merges v) v (inherited v) b) := by
  obtain ⟨-, hce, hidom⟩ := (ht.mem_children_iff hg he).mp hc
  refine .child ?_ hidom (h.inherits v hv)
  rw [ht.entry]
  exact_mod_cast Ne.symm hce

/-- A visit covers the blocks that its block dominates. -/
theorem visits_visit {e : Nat} (ht : g.IsDominatorTree e t) (hg : g.Mirrored) (he : e < g.size)
    (h : s.Enters fn g t merges b inherited) (hok : visit fn g t depth b s = .ok s') :
    Visits fn g t merges e [b] s s' := by
  induction depth generalizing b s s' inherited with
  | zero => cases hok
  | succ depth ih =>
    obtain ⟨s₁, s₂, hb, hchildren, hpops⟩ := visit_succ_eq_ok.mp hok
    obtain ⟨henter, hcovers⟩ := enterBlock_spec h hb
    have hbelow := visits_roots (fun c _ _ _ => ih)
      (fun c hc v hv => h.inherits_child ht hg he hc hv) henter.sound henter.carries hchildren
    obtain ⟨hsound, hgrows⟩ : s'.Sound fn g t merges ∧ s₂.Grows s' := by
      obtain ⟨_, rfl⟩ := restacks_pops hpops
      exact ⟨hbelow.sound.congr rfl rfl, .of_eq rfl rfl⟩
    refine ⟨hsound, (henter.grows.trans hbelow.grows).trans hgrows,
      fun a ha x hx => Covers.grows ?_ hgrows⟩
    rw [List.mem_singleton.mp ha] at hx
    rcases ht.eq_or_exists_child hg he hx with rfl | ⟨c, hc, hcx⟩
    · exact hcovers.grows hbelow.grows
    · exact hbelow.covers c hc x hcx

end Visiting

end Renaming

end LocalFlow
