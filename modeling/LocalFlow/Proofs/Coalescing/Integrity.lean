import LocalFlow.Proofs.Coalescing.Acceptance
import LocalFlow.Proofs.Function.Shape

/-! What coalescing leaves is a well-formed function again. Redirecting keeps all of a node but its
index, and removing a store leaves no node with a child too few, so neither the shape of the body nor
the labels around a branch get lost. -/

namespace LocalFlow

namespace Redirection

variable {slot : Nat → Nat} {dead : List Ref} {read : Array Bool} {r : Ref} {n : Node}
  {kids kids' : List (Unit → Tree)} {t t' : Tree} {labels : List String}

/-- All of the node is kept but the local that it names, or only what remains of a store. -/
inductive Spares (r : Ref) (n : Node) (kids : List (Unit → Tree)) : Tree → Prop
  | reindexed (i : Nat) : Spares r n kids (.node r { n with index := i } kids)
  | removed {value : Unit → Tree} {t : Tree} : n.kind.isLocalWrite = true → kids = [value] →
      n.kind.Remains False (value ()) t → Spares r n kids t

theorem Redirects.spares (h : Redirects slot dead r n kids t) : Spares r n kids t := by
  cases h with
  | other => exact .reindexed n.index
  | access => exact .reindexed _
  | dead hwrite _ hkids hremains => exact .removed hwrite hkids hremains
  | copy hwrite _ hkids _ _ _ hremains => exact .removed hwrite hkids hremains

theorem Sweeps.spares (h : Sweeps read r n kids t) : Spares r n kids t := by
  cases h with
  | kept => exact .reindexed n.index
  | removed hwrite _ hkids hremains => exact .removed hwrite hkids hremains

theorem shaped_relabel (value : Tree) (r : Ref) : (value.relabel r).Shaped ↔ value.Shaped := by
  cases value <;> exact Iff.rfl

theorem relabel_eq_absent {value : Tree} : value.relabel r = .absent ↔ value = .absent := by
  cases value <;> simp [Tree.relabel]

theorem strays_relabel (value : Tree) (r : Ref) :
    (value.relabel r).strays labels = value.strays labels := by
  cases value <;> rfl

theorem ne_absent_of_shaped {value : Unit → Tree} (hwrite : n.kind.isLocalWrite = true)
    (h : n.Shaped [value]) : value () ≠ .absent := by
  intro habsent
  have hoptional := (h.missing 0 value rfl habsent).1
  rw [Node.isOptionalSlot_of_isLocalWrite hwrite] at hoptional
  cases hoptional

/-- What is left of a node in good shape, with children in good shape, is in good shape. -/
theorem Spares.shaped (h : Spares r n kids t) (hn : n.Shaped kids) (hkids : Tree.ShapedAll kids) :
    t.Shaped ∧ t ≠ .absent := by
  cases h with
  | reindexed i => exact ⟨⟨⟨hn.arity, hn.missing⟩, hkids⟩, by simp⟩
  | removed hwrite heq hremains =>
    subst heq
    have hvalue := ne_absent_of_shaped hwrite hn
    cases hremains with
    | value r' =>
      exact ⟨(shaped_relabel _ _).mpr hkids.1, fun habsent => hvalue (relabel_eq_absent.mp habsent)⟩
    | drop _ hkind =>
      refine ⟨⟨⟨⟨1, some 1, by rw [hkind]; rfl, by simp, by simp⟩, fun i kid hkid habsent => ?_⟩,
        hkids⟩, by simp⟩
      cases i with
      | zero =>
        cases hkid
        exact absurd habsent hvalue
      | succ i => cases hkid
    | nop _ _ _ _ hkind =>
      refine ⟨⟨⟨⟨0, some 0, by rw [hkind]; rfl, by simp, by simp⟩, fun i kid hkid => ?_⟩, trivial⟩,
        by simp⟩
      cases hkid

theorem Spares.strays_sublist (h : Spares r n kids t) (labels : List String) :
    (t.strays labels).Sublist
      (Tree.straysAll (n.labelsInside labels) kids ++ unresolved labels n.branchLabels) := by
  cases h with
  | reindexed i => exact .refl _
  | @removed value t hwrite heq hremains =>
    subst heq
    have hinside : n.labelsInside labels = labels := by
      rcases Kind.isLocalWrite_iff.mp hwrite with hkind | hkind
      · rw [Node.labelsInside, hkind]
      · rw [Node.labelsInside, hkind]
    have hvalue : ((value ()).strays labels).Sublist
        (Tree.straysAll (n.labelsInside labels) [value] ++ unresolved labels n.branchLabels) := by
      rw [hinside, Tree.straysAll, Tree.straysAll, List.append_nil]
      exact List.sublist_append_left _ _
    cases hremains with
    | value r' => rwa [strays_relabel]
    | drop _ hkind =>
      simpa [Tree.strays, Tree.straysAll, Node.labelsInside, Node.branchLabels, hkind, unresolved]
        using hvalue
    | nop _ _ _ _ hkind =>
      simp [Tree.strays, Tree.straysAll, Node.branchLabels, hkind, unresolved]

section Rewrites

variable {change : Ref → Node → List (Unit → Tree) → Tree → Prop}

/-- A pass that spares the nodes keeps the shape of a tree, and leaves nothing only of nothing. -/
theorem shaped_of_rewrites (hspares : ∀ {r n kids t}, change r n kids t → Spares r n kids t)
    (h : Tree.Rewrites change t t') (ht : t.Shaped) : t'.Shaped ∧ (t' = .absent → t = .absent) := by
  induction t generalizing t' with
  | absent =>
    cases h
    exact ⟨trivial, id⟩
  | dangling => cases h
  | endless => cases h
  | node r n kids ih =>
    cases h with
    | @node _ _ _ kids' _ hall hchange =>
      have hkids := Tree.shapedAll_iff.mp ht.2
      -- A child is missing only if it was missing before, when its slot was optional.
      have hfound : ∀ {i : Nat} {k' : Unit → Tree}, kids'[i]? = some k' → ∃ k, kids[i]? = some k ∧
          (k' ()).Shaped ∧ (k' () = .absent → k () = .absent) := by
        intro i k' hk'
        obtain ⟨k, hk, hrewrites⟩ := hall.exists_of_getElem? hk'
        have hmem := List.mem_of_getElem? hk
        exact ⟨k, hk, ih k hmem hrewrites (hkids k hmem)⟩
      have hshaped : n.Shaped kids' := by
        refine ⟨by rw [hall.length_eq]; exact ht.1.arity, fun i k' hk' habsent => ?_⟩
        obtain ⟨k, hk, -, hback⟩ := hfound hk'
        exact ht.1.missing i k hk (hback habsent)
      have hshapedAll : Tree.ShapedAll kids' := by
        refine Tree.shapedAll_iff.mpr fun k' hmem => ?_
        obtain ⟨i, hk'⟩ := List.mem_iff_getElem?.mp hmem
        obtain ⟨-, -, hk', -⟩ := hfound hk'
        exact hk'
      obtain ⟨hshape, hpresent⟩ := (hspares hchange).shaped hshaped hshapedAll
      exact ⟨hshape, fun habsent => absurd habsent hpresent⟩

theorem straysAll_sublist (ih : ∀ k ∈ kids, ∀ {t'}, Tree.Rewrites change (k ()) t' →
      ∀ labels, (t'.strays labels).Sublist ((k ()).strays labels))
    (h : Tree.RewritesAll change kids kids') (labels : List String) :
    (Tree.straysAll labels kids').Sublist (Tree.straysAll labels kids) := by
  induction kids generalizing kids' with
  | nil =>
    cases h
    exact .refl _
  | cons k kids ihk =>
    cases h with
    | cons hk hkids =>
      exact (ih k (by simp) hk labels).append (ihk (fun k hk => ih k (.tail _ hk)) hkids)

/-- A pass that spares the nodes leaves no branch to a label that was not stray before. -/
theorem strays_sublist (hspares : ∀ {r n kids t}, change r n kids t → Spares r n kids t)
    (h : Tree.Rewrites change t t') (labels : List String) :
    (t'.strays labels).Sublist (t.strays labels) := by
  induction t generalizing t' labels with
  | absent =>
    cases h
    exact .refl _
  | dangling => cases h
  | endless => cases h
  | node r n kids ih =>
    cases h with
    | node hall hchange =>
      have hkids := straysAll_sublist (fun k hk _ => ih k hk) hall (n.labelsInside labels)
      exact ((hspares hchange).strays_sublist labels).trans (hkids.append_right _)

end Rewrites

end Redirection

/-- A slot has the type of every local that it stands for. -/
theorem Coloring.localType_slot {fn fn' : Function} {m : Interference} {classes : Coloring} {v : Nat}
    (hsound : Sound fn m classes) (hproper : Proper fn classes) (hparams : fn'.params = fn.params)
    (hvars : fn'.vars = classes.vars fn) (hv : v < fn.numLocals) :
    fn'.localType (slot fn classes v) = fn.localType v := by
  unfold slot Function.localType Function.localTypes
  rw [hparams, hvars]
  by_cases hparam : fn.isParam v = true
  · rw [if_pos hparam]
    simp only [Function.isParam, decide_eq_true_eq] at hparam
    unfold Function.numParams at hparam
    simp [List.getD_eq_getElem?_getD, List.getElem?_append_left hparam]
  · rw [if_neg hparam]
    have hlt := hsound.findIdx_lt (isVar_of_not_isParam hv hparam)
    have hmem : v ∈ classes[classes.findIdx (v ∈ ·)] := by
      simpa using List.findIdx_getElem (w := hlt)
    obtain ⟨first, hfirst, htypes⟩ := hproper _ (List.getElem_mem hlt)
    have htype := (htypes v hmem).2
    unfold Function.localType Function.localTypes at htype
    rw [htype]
    have hle : fn.params.length ≤ fn.numParams + classes.findIdx (v ∈ ·) := Nat.le_add_right _ _
    have hsub : fn.numParams + classes.findIdx (v ∈ ·) - fn.params.length =
        classes.findIdx (v ∈ ·) := by
      unfold Function.numParams
      omega
    rw [List.getD_eq_getElem?_getD, List.getElem?_append_right hle, hsub]
    simp [Coloring.vars, hlt, hfirst, Function.localType, Function.localTypes]

namespace Function

variable {fn : Function} {t : Tree} {order : SlotOrder} {c : Coalesced} {r : Ref} {n : Node}

/-- A read or a tee carries the type of its local. -/
def TypesAccess (fn : Function) (n : Node) : Prop :=
  n.kind = .localGet ∨ n.kind = .localTee → n.type = fn.localType n.index

/-- Every read and every tee of the body carries the type of its local. -/
def AccessesTyped (fn : Function) : Prop :=
  ∀ x ∈ (fn.tree fn.body).nodes, fn.TypesAccess x.2

theorem leftover_typesAccess (fn : Function) : Redirection.Leftover fn.TypesAccess where
  drop h := by simp [TypesAccess, h]
  nop h := by simp [TypesAccess, h]

/-- A body in good shape that names declared locals only is well formed. -/
theorem Redirectable.wellFormed (h : fn.Redirectable t) (hshaped : t.Shaped)
    (hready : ∀ x ∈ t.nodes, Redirection.Ready fn.numLocals x.2) : fn.WellFormed t :=
  ⟨h.isAt, h.tree_eq, h.nodup, fun x hx =>
    rejection?_eq_none (h.isAt.shaped_iff.mp hshaped x hx) (hready x hx).2⟩

theorem WellFormed.shaped (h : fn.WellFormed t) : t.Shaped :=
  h.isAt.shaped_iff.mpr fun x hx => flaw?_of_rejection? (h.accepted x hx)

theorem SameBut.withVars {fn' : Function} {changed : List Ref} (h : SameBut changed fn fn')
    (vars : List ValueType) : SameBut changed { fn with vars } { fn' with vars } :=
  ⟨h.name, h.params, h.results, rfl, h.body, h.size, h.node?_eq⟩

end Function

/-- How coalescing came about: the variables are grouped in classes, and the body `t` becomes `mid` when
it is redirected, and `t'` when the stores that nobody reads are removed. -/
structure Coalesced.From (c : Coalesced) (fn : Function) (classes : Coloring) (t mid t' : Tree) :
    Prop where
  analyzed : fn.analyze = .ok c.analysis
  wellFormed : fn.WellFormed t
  sound : classes.Sound fn c.analysis.interference
  proper : classes.Proper fn
  length_le : classes.length ≤ fn.vars.length
  redirects : Tree.Rewrites (Redirection.Redirects (classes.slot fn) c.analysis.ineffective) t mid
  sweeps : ∃ read, Tree.Rewrites (Redirection.Sweeps read) mid t'
  redirectable : c.function.Redirectable t'
  same : ∃ changed, Function.SameBut changed { fn with vars := classes.vars fn } c.function
  mapping_eq : c.summary.mapping = classes.mapping fn
  before_eq : c.summary.before = fn.numLocals
  after_eq : c.summary.after = c.function.numLocals

theorem Function.exists_from {G : Type} {lib : GraphLibrary G} {fn : Function} {order : SlotOrder}
    {c : Coalesced} (h : fn.coalesce lib order = .ok c) :
    ∃ classes t mid t', c.From fn classes t mid t' := by
  obtain ⟨a, classes, w, w', ha, hcolor, hw, hw', rfl⟩ := coalesce_steps h
  have hsound := Coloring.sound_of_color hcolor
  obtain ⟨hproper, hlen⟩ := Coloring.proper_of_color (analyze_sound ha).square hcolor
  obtain ⟨t, -, -, -, ht, -⟩ := analyze_eq_ok ha
  obtain ⟨mid, hmid, hredirects, hsame, -⟩ := ht.redirected hsound hw
  obtain ⟨read, t', -, ht', hsweeps, hsame'⟩ := Redirection.removeDeadStores_spec hmid hw'
  exact ⟨classes, t, mid, t', ha, ht, hsound, hproper, hlen, hredirects, ⟨read, hsweeps⟩, ht',
    ⟨_, (hsame.withVars _).trans hsame'⟩, rfl, rfl, rfl⟩

namespace Coalesced.From

variable {c : Coalesced} {fn : Function} {classes : Coloring} {t mid t' : Tree}

theorem params_eq (h : c.From fn classes t mid t') : c.function.params = fn.params := by
  obtain ⟨_, hsame⟩ := h.same
  exact hsame.params

theorem vars_eq (h : c.From fn classes t mid t') : c.function.vars = classes.vars fn := by
  obtain ⟨_, hsame⟩ := h.same
  exact hsame.vars

theorem numLocals_eq (h : c.From fn classes t mid t') :
    c.function.numLocals = fn.numParams + classes.length := by
  simp [Function.numLocals, Function.numParams, h.params_eq, h.vars_eq, Coloring.vars]

theorem localType_slot (h : c.From fn classes t mid t') {v : Nat} (hv : v < fn.numLocals) :
    c.function.localType (classes.slot fn v) = fn.localType v :=
  Coloring.localType_slot h.sound h.proper h.params_eq h.vars_eq hv

/-- The function that is left is well formed. -/
theorem wellFormed_function (h : c.From fn classes t mid t') : c.function.WellFormed t' := by
  obtain ⟨read, hsweeps⟩ := h.sweeps
  have hshaped := (Redirection.shaped_of_rewrites Redirection.Redirects.spares h.redirects
    h.wellFormed.shaped).1
  have hshaped' := (Redirection.shaped_of_rewrites Redirection.Sweeps.spares hsweeps hshaped).1
  have hready := (Redirection.refines_ready h.sound).redirected h.redirects h.wellFormed.ready
  have hready' := (Redirection.leftover_ready _).swept hsweeps hready
  rw [← h.numLocals_eq] at hready'
  exact h.redirectable.wellFormed hshaped' hready'

/-- There was no stray label, and none becomes stray. -/
theorem strayLabels_eq_nil (h : c.From fn classes t mid t') : c.function.strayLabels = [] := by
  obtain ⟨read, hsweeps⟩ := h.sweeps
  have hnone := Function.strayLabels_of_analyze h.analyzed
  have hsub : c.function.strayLabels.Sublist fn.strayLabels := by
    rw [Function.strayLabels, Function.strayLabels, h.redirectable.tree_eq, h.wellFormed.tree_eq]
    exact (Redirection.strays_sublist Redirection.Sweeps.spares hsweeps []).trans
      (Redirection.strays_sublist Redirection.Redirects.spares h.redirects [])
  rw [hnone] at hsub
  exact List.sublist_nil.mp hsub

/-- Accesses carry the types of their locals again if they did before. -/
theorem accessesTyped (h : c.From fn classes t mid t') (htyped : fn.AccessesTyped) :
    c.function.AccessesTyped := by
  obtain ⟨read, hsweeps⟩ := h.sweeps
  have hleftover := Function.leftover_typesAccess c.function
  have hrefines : Redirection.Refines (classes.slot fn)
      (fun n => Redirection.Ready fn.numLocals n ∧ fn.TypesAccess n) c.function.TypesAccess := by
    refine ⟨hleftover, fun {n} hother _ hkind => ?_, fun {n} haccess hn hkind => ?_⟩
    · rcases hkind with hkind | hkind
      · rw [hkind] at hother
        cases hother
      · rw [hkind] at hother
        cases hother
    · exact (hn.2 hkind).trans (h.localType_slot (hn.1.2 haccess)).symm
  unfold Function.AccessesTyped at htyped ⊢
  rw [h.wellFormed.tree_eq] at htyped
  rw [h.redirectable.tree_eq]
  have hmid := hrefines.redirected h.redirects fun x hx => ⟨h.wellFormed.ready x hx, htyped x hx⟩
  exact hleftover.swept hsweeps hmid

end Coalesced.From

namespace Function

variable {G : Type} {lib : GraphLibrary G} {fn : Function} {order : SlotOrder} {c : Coalesced}

/-- Coalescing leaves a well-formed function with the same name, parameters and results, in an arena of
the same size. Its branches have targets, so that its graph can be built, and it can be analyzed and
coalesced again. Every local has a slot of its own type, there are no more slots than locals, and
reads and tees carry the types of their slots if they carried those of their locals. -/
theorem coalesce_wellFormed (h : fn.coalesce lib order = .ok c) :
    c.function.validate = .ok () ∧ c.function.strayLabels = [] ∧
      (∀ {α : Type} (recorder : Ref → Option α),
        ∃ g, c.function.lower c.function.body recorder = .ok g) ∧
      (∃ a, c.function.analyze = .ok a) ∧
      (∀ {G' : Type} {lib' : GraphLibrary G'}, lib'.Keeps → ∀ order',
        ∃ c', c.function.coalesce lib' order' = .ok c') ∧
      c.function.name = fn.name ∧ c.function.params = fn.params ∧ c.function.results = fn.results ∧
      c.function.nodes.size = fn.nodes.size ∧
      (∀ i < fn.numLocals, ∃ s < c.function.numLocals, c.summary.mapping[i]? = some s ∧
        c.function.localType s = fn.localType i) ∧
      c.summary.mapping.size = fn.numLocals ∧ c.summary.before = fn.numLocals ∧
      c.summary.after = c.function.numLocals ∧ c.summary.after ≤ c.summary.before ∧
      (fn.AccessesTyped → c.function.AccessesTyped) := by
  obtain ⟨classes, t, mid, t', hfrom⟩ := exists_from h
  obtain ⟨changed, hsame⟩ := hfrom.same
  have hformed := hfrom.wellFormed_function
  have hvalid := validate_eq_ok_iff.mpr ⟨t', hformed⟩
  have hstrays := hfrom.strayLabels_eq_nil
  have hslots : ∀ i < fn.numLocals, ∃ s < c.function.numLocals, c.summary.mapping[i]? = some s ∧
      c.function.localType s = fn.localType i := by
    intro i hi
    refine ⟨classes.slot fn i, ?_, ?_, hfrom.localType_slot hi⟩
    · rw [hfrom.numLocals_eq]
      exact hfrom.sound.slot_lt hi
    · rw [hfrom.mapping_eq]
      exact fetch_eq_ok.mp (Coloring.fetch_mapping_total classes hi)
  have hsize : c.summary.mapping.size = fn.numLocals := by
    rw [hfrom.mapping_eq]
    simp [Coloring.mapping]
  have hfewer : c.summary.after ≤ c.summary.before := by
    rw [hfrom.after_eq, hfrom.before_eq, hfrom.numLocals_eq, numLocals, numParams]
    exact Nat.add_le_add_left hfrom.length_le _
  have hroom : c.function.numLocals * c.function.numLocals ≤ 2 ^ 48 := by
    rw [hfrom.after_eq, hfrom.before_eq] at hfewer
    exact (Nat.mul_le_mul hfewer hfewer).trans (sq_le_of_analyze hfrom.analyzed)
  obtain ⟨a, ha⟩ := exists_analyze hvalid hstrays hroom
  exact ⟨hvalid, hstrays, fun recorder => (hformed.lower_failsAt recorder).exists_ok hstrays,
    ⟨a, ha⟩, fun hlib => coalesce_of_analyze hlib ha, hsame.name, hsame.params, hsame.results,
    hsame.size, hslots, hsize, hfrom.before_eq, hfrom.after_eq, hfewer, hfrom.accessesTyped⟩

/-- Passes a parameter on by nested tees and by a copy, and stores a number and the old size of the
memory where nobody reads them. -/
def nestedTees : Function where
  name := "nested_tees"
  params := [.i32]
  vars := [.i32, .i64, .i32, .i32, .i32]
  body := 15
  nodes := #[
    { kind := .localGet, type := .i32, index := 0 },
    { kind := .localTee, type := .i32, index := 1, kids := [0] },
    { kind := .localTee, type := .i32, index := 3, kids := [1] },
    { kind := .localSet, index := 1, kids := [2] },
    { kind := .const, type := .i64, value := .i64 7 },
    { kind := .localSet, index := 2, kids := [4] },
    { kind := .localGet, type := .i32, index := 3 },
    { kind := .br, label := "out", kids := [.absent, 6] },
    { kind := .const, type := .i32, value := .i32 1 },
    { kind := .memoryGrow, type := .i32, kids := [8] },
    { kind := .localSet, index := 5, kids := [9] },
    { kind := .localGet, type := .i32, index := 1 },
    { kind := .localSet, index := 4, kids := [11] },
    { kind := .localGet, type := .i32, index := 4 },
    { kind := .globalSet, index := 0, kids := [13] },
    { kind := .block, label := "out", kids := [3, 5, 7, 10, 12, 14] }]

theorem coalesce_wellFormed_nestedTees :
    ∃ c, nestedTees.coalesce .lists .degree = .ok c ∧ c.summary.before = 6 ∧ c.summary.after = 4 ∧
      c.summary.stores = 3 ∧ c.summary.copies = 1 ∧ nestedTees.AccessesTyped ∧
      c.function.validate = .ok () ∧ c.function.strayLabels = [] ∧
      (∃ c', c.function.coalesce .lists .index = .ok c') ∧ c.function.AccessesTyped := by
  have htyped : nestedTees.AccessesTyped := by
    unfold AccessesTyped TypesAccess
    decide +kernel
  obtain ⟨c, hc, hsummary⟩ : ∃ c, nestedTees.coalesce .lists .degree = .ok c ∧ c.summary.before = 6 ∧
      c.summary.after = 4 ∧ c.summary.stores = 3 ∧ c.summary.copies = 1 :=
    ⟨_, by cbv, rfl, rfl, rfl, rfl⟩
  obtain ⟨hvalid, hstrays, -, -, hagain, -, -, -, -, -, -, -, -, -, hkeeps⟩ := coalesce_wellFormed hc
  exact ⟨c, hc, hsummary.1, hsummary.2.1, hsummary.2.2.1, hsummary.2.2.2, htyped, hvalid, hstrays,
    hagain GraphLibrary.keeps_lists .index, hkeeps htyped⟩

end Function

end LocalFlow
