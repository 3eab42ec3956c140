import LocalFlow.Proofs.Coalescing.Redirection
import LocalFlow.Proofs.Liveness.Point

/-! Evaluating a function whose locals share slots. At every point of the graph of actions, the slot of
a live local has the value of the local: a write reaches only locals that are dead or have the value
that is written, and a write that is left out is not missed. -/

namespace LocalFlow

open LocalFlow.Graph

/-- What makes it safe that locals share slots and that the writes of the nodes in `dead` are left
out. -/
structure Sharing (fn : Function) (g : Graph Action) (live : Liveness) (classes : Coloring)
    (dead : List Ref) : Prop where
  stable : live.Stable g
  slot_lt : ∀ {v}, v < fn.numLocals → classes.slot fn v < fn.numParams + classes.length
  agree : ∀ {p σ u v}, fn.Arrives g p σ → u < fn.numLocals → v < fn.numLocals →
    classes.slot fn u = classes.slot fn v → u ∈ live.atPoint g p → v ∈ live.atPoint g p → σ u = σ v
  dead_iff : ∀ {b i : Nat} {x : Action}, (g.items b)[i]? = some x → x.access = .set →
    (x.origin ∈ dead ↔ x.index ∉ live.atPoint g (b, i + 1))

/-- A coloring of the interferences that were found makes sharing safe. -/
theorem Coloring.Sound.sharing {fn : Function} {a : Analysis} {g : Graph Action} {classes : Coloring}
    {t : Tree} (h : Coloring.Sound fn a.interference classes) (hsound : a.Sound fn)
    (ht : fn.WellFormed t) (hg : fn.actionGraph = .ok g) (hlive : a.live.Stable g)
    (hgraph : a.graph = g.markRanges a.live) : Sharing fn g a.live classes a.ineffective where
  stable := hlive
  slot_lt := h.slot_lt
  agree {p σ u v} hσ hu hv hslot hlu hlv := by
    by_cases huv : u = v
    · rw [huv]
    · obtain ⟨hu, hv, hapart⟩ := h.separate_of_slot_eq hu hv huv hslot
      have hσ' : fn.Arrives a.graph p σ := hgraph ▸ hσ.markRanges
      have hat : a.live.atPoint a.graph p = a.live.atPoint g p := by
        rw [hgraph, Liveness.atPoint_markRanges]
      rw [← hat] at hlu hlv
      rcases hapart with hnot | hnot
      · exact hsound.agree_at hσ' hu hv huv hnot hlu hlv
      · exact (hsound.agree_at hσ' hv hu (Ne.symm huv) hnot hlv hlu).symm
  dead_iff hx hset := Analysis.mem_ineffective_iff ht hg hgraph hx hset

/-- At `p` the values of the locals are in `l`, and those of the live locals are in their slots in
`l'`. -/
structure Shares (fn : Function) (g : Graph Action) (live : Liveness) (classes : Coloring) (p : Point)
    (l l' : Array UInt64) : Prop where
  size : l.size = fn.numLocals
  size_slots : l'.size = fn.numParams + classes.length
  arrives : fn.Arrives g p fun v => l.getD v 0
  same : ∀ {v}, v ∈ live.atPoint g p → v < fn.numLocals → l'[classes.slot fn v]? = l[v]?

/-- What is in the slots on one side of an edge is there on the other side too. -/
theorem Sharing.jump {fn : Function} {g : Graph Action} {live : Liveness} {classes : Coloring}
    {dead : List Ref} {p : Point} {b : Nat} (h : Sharing fn g live classes dead)
    (hjump : g.Jumps p b) : LocalsRel.Passes (Shares fn g live classes) p (b, 0) := fun _ _ hl =>
  ⟨hl.size, hl.size_slots, hl.arrives.jump hjump,
    fun hv hlt => hl.same (h.stable.mem_of_jump hjump hv) hlt⟩

namespace Shares

variable {fn : Function} {g : Graph Action} {live : Liveness} {classes : Coloring} {dead : List Ref}
  {p : Point} {v : Nat} {x : Action} {l l' : Array UInt64} {y : UInt64}

theorem passes_get (hx : (g.items p.1)[p.2]? = some x) (hget : x.access = .get) :
    LocalsRel.Passes (Shares fn g live classes) p (p.1, p.2 + 1) := by
  intro l l' hl
  have hperforms : x.Performs (fun v => l.getD v 0) fun v => l.getD v 0 := by
    simp only [Action.Performs, hget]
  exact ⟨hl.size, hl.size_slots, hl.arrives.step hx hperforms, fun hv hlt =>
    hl.same ((Liveness.mem_atPoint_of_get hx hget).mpr (.inr hv)) hlt⟩

theorem slot_of_get (hl : Shares fn g live classes p l l') (hx : (g.items p.1)[p.2]? = some x)
    (hget : x.access = .get) (hlt : x.index < fn.numLocals) :
    l'[classes.slot fn x.index]? = l[x.index]? :=
  hl.same ((Liveness.mem_atPoint_of_get hx hget).mpr (.inl rfl)) hlt

theorem arrives_of_set (hl : Shares fn g live classes p l l') (hx : (g.items p.1)[p.2]? = some x)
    (hset : x.access = .set) (hlt : x.index < fn.numLocals)
    (hcopy : ∀ source, x.copy = some source → l[source]? = some y) :
    fn.Arrives g (p.1, p.2 + 1) fun v => (l.setIfInBounds x.index y).getD v 0 := by
  refine hl.arrives.step hx ?_
  have hbound : x.index < l.size := hl.size ▸ hlt
  have hvalues : (fun v => (l.setIfInBounds x.index y).getD v 0) =
      Function.update (fun v => l.getD v 0) x.index y := by
    funext v
    by_cases hv : v = x.index
    · subst hv
      simp [hbound]
    · simp [Function.update_of_ne hv, Ne.symm hv]
  rw [hvalues]
  unfold Action.Performs
  split
  · rename_i hget
    rw [hset] at hget
    cases hget
  · rename_i source _ hsource
    simp [hcopy source hsource]
  · exact ⟨y, rfl⟩

theorem same_of_set (hl : Shares fn g live classes p l l') (hx : (g.items p.1)[p.2]? = some x)
    (hset : x.access = .set) (hv : v ∈ live.atPoint g (p.1, p.2 + 1)) (hlt : v < fn.numLocals)
    (hne : v ≠ x.index) : l'[classes.slot fn v]? = (l.setIfInBounds x.index y)[v]? := by
  rw [Array.getElem?_setIfInBounds, if_neg (Ne.symm hne)]
  exact hl.same ((Liveness.mem_atPoint_of_set hx hset).mpr ⟨hv, hne⟩) hlt

/-- A write may be left out if its local is dead, or if its slot has the value already. -/
theorem skip (hl : Shares fn g live classes p l l') (hx : (g.items p.1)[p.2]? = some x)
    (hset : x.access = .set) (hlt : x.index < fn.numLocals)
    (hcopy : ∀ source, x.copy = some source → l[source]? = some y)
    (hself : x.index ∈ live.atPoint g (p.1, p.2 + 1) → l'[classes.slot fn x.index]? = some y) :
    Shares fn g live classes (p.1, p.2 + 1) (l.setIfInBounds x.index y) l' := by
  refine ⟨by simpa using hl.size, hl.size_slots, hl.arrives_of_set hx hset hlt hcopy, ?_⟩
  intro v hv hvlt
  by_cases hne : v = x.index
  · subst hne
    rw [hself hv, Array.getElem?_setIfInBounds, if_pos rfl, if_pos (hl.size ▸ hlt)]
  · exact hl.same_of_set hx hset hv hvlt hne

/-- A write of a live local goes to its slot. The other live locals of the slot have the same value. -/
theorem write (hl : Shares fn g live classes p l l') (h : Sharing fn g live classes dead)
    (hx : (g.items p.1)[p.2]? = some x) (hset : x.access = .set) (hlt : x.index < fn.numLocals)
    (hcopy : ∀ source, x.copy = some source → l[source]? = some y)
    (hself : x.index ∈ live.atPoint g (p.1, p.2 + 1)) :
    Shares fn g live classes (p.1, p.2 + 1) (l.setIfInBounds x.index y)
      (l'.setIfInBounds (classes.slot fn x.index) y) := by
  have harrives := hl.arrives_of_set hx hset hlt hcopy
  refine ⟨by simpa using hl.size, by simpa using hl.size_slots, harrives, ?_⟩
  intro v hv hvlt
  have hbound : x.index < l.size := hl.size ▸ hlt
  have hbound' : classes.slot fn x.index < l'.size := hl.size_slots ▸ h.slot_lt hlt
  by_cases hslot : classes.slot fn v = classes.slot fn x.index
  · have hvalue : (l.setIfInBounds x.index y)[v]? = some y := by
      have hsame := h.agree harrives hvlt hlt hslot hv hself
      have hvl : v < (l.setIfInBounds x.index y).size := by
        rw [Array.size_setIfInBounds, hl.size]
        exact hvlt
      simp only [Array.getD_eq_getD_getElem?, Array.getElem?_setIfInBounds_self_of_lt hbound,
        Array.getElem?_eq_getElem hvl, Option.getD_some] at hsame
      rw [Array.getElem?_eq_getElem hvl, hsame]
    rw [hslot, Array.getElem?_setIfInBounds_self_of_lt hbound', hvalue]
  · have hne : v ≠ x.index := fun heq => hslot (by rw [heq])
    rw [Array.getElem?_setIfInBounds_ne (Ne.symm hslot)]
    exact hl.same_of_set hx hset hv hvlt hne

end Shares

/-- Where there is a label, the two say the same of the branches to it. -/
def Graph.Labels.Leads (labels : Labels) (points : String → Option Point) : Prop :=
  ∀ label, label ≠ "" → points label = (labels label).map fun b => (b, 0)

namespace Graph

variable {labels : Labels} {points : String → Option Point}

theorem Labels.Leads.update (h : labels.Leads points) (label : String) (b : Option Nat) :
    Labels.Leads (Function.update labels label b)
      (Function.update points label (b.map fun b => (b, 0))) := by
  intro l hl
  by_cases heq : l = label
  · subst heq
    rw [Function.update_self, Function.update_self]
  · rw [Function.update_of_ne heq, Function.update_of_ne heq, h l hl]

theorem Labels.Leads.inBlock (h : labels.Leads points) (label : String) (b : Option Nat) :
    Labels.Leads (Function.update labels label b)
      (LocalFlow.inBlock points label (b.map fun b => (b, 0))) := by
  unfold LocalFlow.inBlock
  split
  · rename_i hempty
    intro l hl
    rw [Function.update_of_ne (by rwa [hempty]), h l hl]
  · exact h.update label b

end Graph

namespace Sharing

variable {fn : Function} {g : Graph Action} {live : Liveness} {classes : Coloring} {dead : List Ref}
  {labels : Labels} {points : String → Option Point} {safe : Prop} {p q : Point} {r : Ref} {n : Node}
  {kids kids' : List (Unit → Tree)}

/-- A node that is no access keeps to its slots whatever it does. -/
theorem keeps_other (h : Sharing fn g live classes dead) (hlabels : labels.Leads points)
    (hkind : n.kind.isLocalAccess = false) (hdeparts : g.Departs labels n p q) :
    n.Keeps (Shares fn g live classes) safe points n kids kids' p q := by
  intro m₀ m₀' m m' args _ _ hm r r' _
  refine Node.apply_matches hkind (hm.withApplied _ _) (fun hgo => ?_) fun label hlabel => ?_
  · rcases hdeparts.of_mayGoOn hgo with rfl | ⟨hjump, hzero⟩
    · exact fun _ _ hl => hl
    · have hq : q = (q.1, 0) := by rw [← hzero]
      rw [hq]
      exact h.jump hjump
  · obtain ⟨hne, b, hb, hjump⟩ := hdeparts.of_mayBranch hlabel
    exact ⟨(b, 0), by rw [hlabels label hne, hb]; rfl, h.jump hjump⟩

theorem keeps_get {x : Action} (hkind : n.kind = .localGet) (hx : (g.items p.1)[p.2]? = some x)
    (hget : x.access = .get) (hindex : x.index = n.index) (hlt : n.index < fn.numLocals) :
    n.Keeps (Shares fn g live classes) safe points { n with index := classes.slot fn n.index } kids
      kids' p (p.1, p.2 + 1) := by
  intro m₀ m₀' m m' args _ _ hm r r' _
  have hslot := hm.locals.slot_of_get hx hget (hindex ▸ hlt)
  rw [hindex] at hslot
  have hkind' : { n with index := classes.slot fn n.index }.kind = .localGet := hkind
  rw [Node.apply_get hkind, Node.apply_get hkind']
  simp only [Machine.noteApplied, hslot]
  cases m.locals[n.index]? with
  | none => trivial
  | some y => exact ⟨_, rfl, (hm.pass (Shares.passes_get hx hget)).withApplied _ _⟩

end Sharing

/-- At `p` stands the write `x` of the set or tee `n` at `r`, whose value is the one of `kid`. -/
structure Graph.Writes (fn : Function) (g : Graph Action) (p : Point) (r : Ref) (n : Node)
    (kid : Tree) (x : Action) : Prop where
  item : (g.items p.1)[p.2]? = some x
  access : x.access = .set
  origin : x.origin = r
  index : x.index = n.index
  index_lt : x.index < fn.numLocals
  copied : ∀ source, x.copy = some source → ∀ {m₀ m y}, kid.eval m₀ = .value y m →
    m.locals[source]? = some y

theorem Tree.eval_get {r : Ref} {n : Node} {kids : List (Unit → Tree)} {m₀ m : Machine} {y : UInt64}
    (hkind : n.kind = .localGet) (h : (node r n kids).eval m₀ = .value y m) :
    m.locals[n.index]? = some y := by
  rw [eval_plain (by rw [hkind]; rfl)] at h
  cases hargs : evalAll kids m₀ with
  | value args m₁ =>
    rw [hargs, Completion.bind, Node.apply_get hkind] at h
    cases hx : (m₁.noteApplied r).locals[n.index]? with
    | none =>
      rw [hx] at h
      cases h
    | some x =>
      rw [hx] at h
      cases h
      exact hx
  | signal s m₁ =>
    rw [hargs] at h
    cases h
  | fault f =>
    rw [hargs] at h
    cases h

theorem Graph.Records.writes {fn : Function} {g : Graph Action} {p q : Point} {r : Ref} {n : Node}
    {kid : Unit → Tree} (h : g.Records fn.action? r p q) (hn : fn.node? r = some n)
    (hwrite : n.kind.isLocalWrite = true) (hkids : Tree.AreAt fn [kid] n.kids)
    (hlt : n.index < fn.numLocals) :
    ∃ x, g.Writes fn p r n (kid ()) x ∧ q = (p.1, p.2 + 1) := by
  simp only [Records, Function.action?_of_set hn hwrite] at h
  refine ⟨_, ⟨h.1, rfl, rfl, rfl, hlt, fun source hsource m₀ m y heval => ?_⟩, h.2⟩
  obtain ⟨n₁, hn₁, hkind, rfl⟩ := Function.readIndex?_eq_some hsource
  obtain ⟨r₁, hr₁⟩ := List.length_eq_one_iff.mp hkids.length_eq.symm
  rw [hr₁] at hkids
  have hoperand : n.operand = r₁ := by simp [Node.operand, hr₁]
  obtain ⟨kids₁, heq, -⟩ := hkids.1.exists_node (hoperand ▸ hn₁)
  rw [heq] at heval
  exact Tree.eval_get hkind heval

theorem Tree.eval_of_evalAll_singleton {kid : Unit → Tree} {m₀ m : Machine} {args : List UInt64}
    (h : evalAll [kid] m₀ = .value args m) : ∃ y, args = [y] ∧ (kid ()).eval m₀ = .value y m := by
  rw [evalAll_singleton] at h
  cases heval : (kid ()).eval m₀ with
  | value y m₁ =>
    rw [heval] at h
    cases h
    exact ⟨y, rfl, rfl⟩
  | signal s m₁ =>
    rw [heval] at h
    cases h
  | fault f =>
    rw [heval] at h
    cases h

namespace Graph.Writes

variable {fn : Function} {g : Graph Action} {live : Liveness} {classes : Coloring} {dead : List Ref}
  {points : String → Option Point} {safe : Prop} {p : Point} {r : Ref} {n : Node} {x : Action}

theorem keeps {kid kid' : Unit → Tree} (hw : g.Writes fn p r n (kid ()) x)
    (h : Sharing fn g live classes dead) (hwrite : n.kind.isLocalWrite = true) (hr : r ∉ dead) :
    n.Keeps (Shares fn g live classes) safe points { n with index := classes.slot fn n.index } [kid]
      [kid'] p (p.1, p.2 + 1) := by
  intro m₀ m₀' m m' args hargs _ hm r₁ r₁' _
  obtain ⟨y, rfl, heval⟩ := Tree.eval_of_evalAll_singleton hargs
  have hlive : x.index ∈ live.atPoint g (p.1, p.2 + 1) := by
    by_contra hdead
    exact hr (hw.origin ▸ (h.dead_iff hw.item hw.access).mpr hdead)
  have hl := hm.locals.write h hw.item hw.access hw.index_lt
    (fun source hsource => hw.copied source hsource heval) hlive
  have hlt : n.index < (m.noteApplied r₁).locals.size := by
    rw [← hw.index]
    exact hm.locals.size.symm ▸ hw.index_lt
  have hlt' : classes.slot fn n.index < (m'.noteApplied r₁').locals.size := by
    rw [← hw.index]
    exact hm.locals.size_slots.symm ▸ h.slot_lt hw.index_lt
  have hwrite' : { n with index := classes.slot fn n.index }.kind.isLocalWrite = true := hwrite
  rw [hw.index] at hl
  rw [Node.apply_store hwrite hlt, Node.apply_store hwrite' hlt']
  exact ⟨_, rfl, ⟨hm.memory, hm.events, hm.calls, hm.fuel⟩, hl⟩

theorem skips {kid value : Tree} (hw : g.Writes fn p r n kid x) (hwrite : n.kind.isLocalWrite = true)
    (hself : x.index ∈ live.atPoint g (p.1, p.2 + 1) → ∀ {r' m₀' m' y},
      (value.relabel r').eval m₀' = .value y m' → m'.locals[classes.slot fn x.index]? = some y) :
    n.Skips (Shares fn g live classes) kid value p (p.1, p.2 + 1) := by
  intro m₀ m₀' m m' m₁ y z r₁ r₁' heval heval' hm happly
  have hl := hm.locals.skip hw.item hw.access hw.index_lt
    (fun source hsource => hw.copied source hsource heval) fun hlive => hself hlive heval'
  have hlt : n.index < (m.noteApplied r₁).locals.size := by
    rw [← hw.index]
    exact hm.locals.size.symm ▸ hw.index_lt
  rw [Node.apply_store hwrite hlt] at happly
  cases happly
  rw [hw.index] at hl
  exact hl

end Graph.Writes

namespace Sharing

open LocalFlow.Redirection

variable {fn : Function} {g : Graph Action} {live : Liveness} {classes : Coloring} {dead : List Ref}
  {labels : Labels} {points : String → Option Point} {safe : Prop} {p mid q : Point} {r : Ref}
  {n : Node} {kids kids' : List (Unit → Tree)} {t t' : Tree}

/-- Wherever the tree lies, what redirecting makes of it goes along with it. -/
def Redirected (fn : Function) (g : Graph Action) (live : Liveness) (classes : Coloring)
    (dead : List Ref) (safe : Prop) (t : Tree) : Prop :=
  ∀ {labels points t' p q}, g.Lays fn.action? labels t p q →
    Tree.Rewrites (Redirects (classes.slot fn) dead) t t' → labels.Leads points →
    Tree.Follows (Shares fn g live classes) safe points t t' p q

theorem redirectedAll (ih : ∀ k ∈ kids, Redirected fn g live classes dead safe (k ()))
    (hlays : g.LaysAll fn.action? labels kids p q)
    (hkids : Tree.RewritesAll (Redirects (classes.slot fn) dead) kids kids')
    (hlabels : labels.Leads points) :
    Tree.FollowsAll (Shares fn g live classes) safe points kids kids' p q := by
  induction kids generalizing kids' p with
  | nil =>
    cases hlays
    cases hkids
    exact .nil
  | cons k kids ihk =>
    cases hlays with
    | cons hlay hlays =>
      cases hkids with
      | cons hk hkids =>
        exact .cons (ih k (by simp) hlay hk hlabels)
          (ihk (fun k hk => ih k (.tail _ hk)) hlays hkids)

theorem redirected_slot (ih : ∀ k ∈ kids, Redirected fn g live classes dead safe (k ())) (i : Nat) :
    Redirected fn g live classes dead safe (Tree.slot kids i) := by
  apply Tree.slot_of_kids ih
  intro labels points t' p q hlays hrewrites _
  cases hlays
  cases hrewrites
  exact .absent

theorem eq_of_redirects (hkind : n.kind.isLocalAccess = false)
    (h : Redirects (classes.slot fn) dead r n kids t) : t = .node r n kids := by
  have hwrite : ¬n.kind.isLocalWrite = true := fun hwrite => by
    simp [Kind.isLocalAccess_of_isLocalWrite hwrite] at hkind
  cases h with
  | other => rfl
  | access haccess => simp [haccess] at hkind
  | dead hw => exact absurd hw hwrite
  | copy hw => exact absurd hw hwrite

/-- What is left of a store goes along with it. -/
theorem redirected_store {kid : Unit → Tree} (h : Sharing fn g live classes dead)
    (ih : Redirected fn g live classes dead safe (kid ())) (hn : fn.node? r = some n)
    (hkids : Tree.AreAt fn [kid] n.kids) (hlt : n.index < fn.numLocals)
    (hsafe : safe → ∀ x ∈ (kid ()).nodes, x.2.divides = false)
    (hwrite : n.kind.isLocalWrite = true) (hlays : g.LaysAll fn.action? labels [kid] p mid)
    (hrecords : g.Records fn.action? r mid q)
    (hall : Tree.RewritesAll (Redirects (classes.slot fn) dead) [kid] kids')
    (hchange : Redirects (classes.slot fn) dead r n kids' t') (hlabels : labels.Leads points) :
    Tree.Follows (Shares fn g live classes) safe points (.node r n [kid]) t' p q := by
  obtain ⟨x, hw, rfl⟩ := hrecords.writes hn hwrite hkids hlt
  cases hlays with
  | cons hlay hnil =>
  cases hnil
  cases hall with
  | @cons _ kid' _ _ hkid hnil =>
  cases hnil
  have hacc := Kind.isLocalAccess_of_isLocalWrite hwrite
  have hplain := Kind.isStructured_of_isLocalAccess hacc
  have hfollows := ih hlay hkid hlabels
  have hdivides : safe → ¬(kid' ()).Divides := by
    rintro hs ⟨x, hx, hdivides⟩
    rw [lasting_divides.redirected hkid (hsafe hs) x hx] at hdivides
    cases hdivides
  cases hchange with
  | other hother =>
    rw [hacc] at hother
    cases hother
  | access _ hr =>
    exact .plain hplain hplain (.cons hfollows .nil) (hw.keeps h hwrite (hr hwrite))
  | dead _ hr heq hremains =>
    obtain rfl := List.singleton_inj.mp heq
    have hdead := (h.dead_iff hw.item hw.access).mp (hw.origin ▸ hr)
    refine .removed hfollows (hw.skips hwrite ?_) (hremains.of_safe hdivides)
    exact fun hlive => absurd hlive hdead
  | copy _ _ heq hvalue hget hindex hremains =>
    obtain rfl := List.singleton_inj.mp heq
    refine .removed hfollows (hw.skips hwrite ?_) (hremains.of_safe hdivides)
    intro _ r' m₀' m' y heval
    rw [hvalue] at heval
    rw [hw.index, ← hindex]
    exact Tree.eval_get hget heval

theorem redirected_plain {mid' : Point} (h : Sharing fn g live classes dead)
    (ih : ∀ k ∈ kids, Redirected fn g live classes dead safe (k ())) (hn : fn.node? r = some n)
    (hkids : Tree.AreAt fn kids n.kids) (haccepted : fn.rejection? r n = none)
    (hsafe : safe → ∀ x ∈ Tree.nodesAll kids, x.2.divides = false)
    (hkind : n.kind.isStructured = false) (hlays : g.LaysAll fn.action? labels kids p mid)
    (hrecords : g.Records fn.action? r mid mid') (hdeparts : g.Departs labels n mid' q)
    (hall : Tree.RewritesAll (Redirects (classes.slot fn) dead) kids kids')
    (hchange : Redirects (classes.slot fn) dead r n kids' t') (hlabels : labels.Leads points) :
    Tree.Follows (Shares fn g live classes) safe points (.node r n kids) t' p q := by
  have hfollows := redirectedAll ih hlays hall hlabels
  by_cases hacc : n.kind.isLocalAccess = true
  · obtain rfl := hdeparts.eq_of_access hacc
    have hlt := Function.index_lt_of_rejection? haccepted hacc
    rcases Kind.isLocalAccess_iff.mp hacc with hget | hwrite
    · have hwrite : ¬n.kind.isLocalWrite = true := by simp [hget, Kind.isLocalWrite]
      simp only [Records, Function.action?_of_get hn hget] at hrecords
      obtain ⟨hitem, rfl⟩ := hrecords
      cases hchange with
      | other hother => simp [hacc] at hother
      | access => exact .plain hkind hkind hfollows (keeps_get hget hitem rfl rfl hlt)
      | dead hw => exact absurd hw hwrite
      | copy hw => exact absurd hw hwrite
    · obtain ⟨kid, rfl, -⟩ := Function.exists_value (Function.storesOne_of_rejection? haccepted)
        hwrite hkids
      exact redirected_store h (ih kid (by simp)) hn hkids hlt (by simpa [Tree.nodesAll] using hsafe)
        hwrite hlays hrecords hall hchange hlabels
  · have hother : n.kind.isLocalAccess = false := by simpa using hacc
    obtain rfl := eq_of_redirects hother hchange
    simp only [Records, Function.action?_eq_none hn hother] at hrecords
    subst hrecords
    exact .plain hkind hkind hfollows (h.keeps_other hlabels hother hdeparts)

/-- What redirecting makes of an accepted tree goes along with it, wherever it lies. -/
theorem redirected (h : Sharing fn g live classes dead) (hat : t.IsAt fn r)
    (haccepted : ∀ x ∈ t.nodes, fn.rejection? x.1 x.2 = none)
    (hsafe : safe → ∀ x ∈ t.nodes, x.2.divides = false) :
    Redirected fn g live classes dead safe t := by
  induction t generalizing r with
  | absent =>
    intro labels points t' p q hlays hrewrites _
    cases hlays
    cases hrewrites
    exact .absent
  | dangling => exact hat.elim
  | endless => exact hat.elim
  | node r n kids ih =>
    obtain ⟨rfl, hn, hkids⟩ := hat
    have hself := haccepted (r, n) (by simp [Tree.nodes])
    have ih : ∀ k ∈ kids, Redirected fn g live classes dead safe (k ()) := by
      intro k hk
      obtain ⟨r', -, hr'⟩ := hkids.exists_isAt hk
      exact ih k hk hr' (fun x hx => haccepted x (Tree.mem_nodes_of_kid hk hx))
        fun hs x hx => hsafe hs x (Tree.mem_nodes_of_kid hk hx)
    have hslot := redirected_slot ih
    intro labels points t' p q hlays hrewrites hlabels
    cases hrewrites with
    | node hall hchange =>
    have hstructured : n.kind.isStructured = true → t' = .node r n _ := fun hkind => by
      refine eq_of_redirects (Bool.eq_false_iff.mpr fun hacc => ?_) hchange
      simp [Kind.isStructured_of_isLocalAccess hacc] at hkind
    cases hlays with
    | block hkind hlays =>
      obtain rfl := hstructured (by rw [hkind]; rfl)
      exact .block hkind (redirectedAll ih hlays hall (hlabels.inBlock n.label none)) (fun _ _ hl => hl)
        (by simp)
    | leftBlock hkind hlays hjump =>
      obtain rfl := hstructured (by rw [hkind]; rfl)
      refine .block hkind (redirectedAll ih hlays hall (hlabels.inBlock n.label _)) (h.jump hjump) ?_
      rintro x ⟨⟩ l l' hl
      exact hl
    | loop hkind hhead hlays hexit =>
      obtain rfl := hstructured (by rw [hkind]; rfl)
      exact .loop hkind (h.jump hhead) (hslot 0 hlays (hall.slot 0) (hlabels.update n.label _))
        (h.jump hexit)
    | @ifThen _ _ _ _ _ _ _ _ join hkind habsent hcond htrue harm hjoin hfalse =>
      obtain rfl := hstructured (by rw [hkind]; rfl)
      have hempty : g.Lays fn.action? labels (Tree.slot kids 2) (join, 0) (join, 0) := by
        rw [Tree.slot_eq_absent ((Tree.length_le_of_if hkids hself hkind).2 habsent)]
        exact .absent
      exact .ifElse hkind (hslot 0 hcond (hall.slot 0) hlabels) (h.jump htrue)
        (hslot 1 harm (hall.slot 1) hlabels) (h.jump hjoin) (h.jump hfalse)
        (hslot 2 hempty (hall.slot 2) hlabels) fun _ _ hl => hl
    | ifElse hkind hcond htrue harm hjoin hfalse harm' hjoin' =>
      obtain rfl := hstructured (by rw [hkind]; rfl)
      exact .ifElse hkind (hslot 0 hcond (hall.slot 0) hlabels) (h.jump htrue)
        (hslot 1 harm (hall.slot 1) hlabels) (h.jump hjoin) (h.jump hfalse)
        (hslot 2 harm' (hall.slot 2) hlabels) (h.jump hjoin')
    | plain hkind hlays hrecords hdeparts =>
      refine redirected_plain h ih hn hkids hself (fun hs x hx => ?_) hkind hlays hrecords hdeparts
        hall hchange hlabels
      exact hsafe hs x (List.mem_append_left _ hx)

end Sharing

end LocalFlow
