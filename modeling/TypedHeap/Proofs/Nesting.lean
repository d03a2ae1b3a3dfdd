import Mathlib.Logic.Relation
import TypedHeap.Proofs.Reordering

/-! # Nested declarations

A declared type embeds the types of its fields, however many elements they have, and that of its
flexible array. If names lead to types at all, then a catalog in which some type is embedded in
itself is refused by the name of such a type, whatever else is wrong with it: shapes are found
first. If none is, every shape is found, and the only nesting refused is one too deep to lay out.
-/

namespace TypedHeap.Catalog

open Relation (TransGen)

variable {c : Catalog} {d : Declaration} {t : Target} {owner name : String} {shapes : Shapes}
  {e : RegistryError}

/-- The type `a` is declared with a field or a flexible array of the type `b`. -/
def Embeds (c : Catalog) (a b : String) : Prop :=
  ∃ d ∈ c.declarations, d.name = a ∧ ∃ f ∈ d.fields ++ d.flexible.toList, f.typeName = b

/-- Declared types are nested `n` levels deep in the type of this name. -/
inductive Nests (c : Catalog) : Nat → String → Prop where
  | whole {d : Declaration} (listed : d ∈ c.declarations) : Nests c 0 d.name
  | inside {n : Nat} {a b : String} (embedded : c.Embeds a b) (inner : Nests c n b) :
      Nests c (n + 1) a

def Names (c : Catalog) (name : String) : Prop :=
  (∃ d ∈ c.declarations, d.name = name) ∨ ∃ b ∈ Builtin.all, b.name = name

instance (c : Catalog) (name : String) : Decidable (c.Names name) :=
  inferInstanceAs (Decidable (_ ∨ _))

/-- All names in declarations are those of types. -/
structure Closed (c : Catalog) : Prop where
  fields : ∀ d ∈ c.declarations, ∀ f ∈ d.fields ++ d.flexible.toList, c.Names f.typeName
  coercions : ∀ d ∈ c.declarations, ∀ name ∈ d.coerceTo, c.Names name

/-! ## Names -/

theorem isSome_find?_iff : (c.find? name).isSome = true ↔ ∃ d ∈ c.declarations, d.name = name := by
  simp [find?]

theorem Names.find? (h : c.Names name) :
    (∃ d, c.find? name = some d) ∨
      c.find? name = none ∧ ∃ b, Builtin.find? name = some b := by
  cases hd : c.find? name with
  | some d => exact .inl ⟨d, rfl⟩
  | none =>
      refine .inr ⟨rfl, Option.isSome_iff_exists.mp ?_⟩
      rcases h with hdeclared | ⟨b, listed, hb⟩
      · rw [← isSome_find?_iff, hd] at hdeclared
        cases hdeclared
      · exact List.find?_isSome.mpr ⟨b, listed, decide_eq_true hb⟩

theorem Closed.coercionOf_eq_ok (closed : c.Closed) (listed : d ∈ c.declarations) :
    ∃ coercion, c.coercionOf d = .ok coercion := by
  unfold coercionOf
  cases hname : d.coerceTo with
  | none => exact ⟨_, rfl⟩
  | some name =>
      rcases (closed.coercions d listed name hname).find? with ⟨d', hd⟩ | ⟨hd, b, hb⟩
      · simp only [hd]
        exact ⟨_, rfl⟩
      · simp only [hd, hb]
        exact ⟨_, rfl⟩

theorem Closed.resolve_eq_ok (closed : c.Closed) (named : c.Names name) (owner : String) :
    ∃ t, c.resolve owner name = .ok t := by
  unfold resolve
  rcases named.find? with ⟨d, hd⟩ | ⟨hd, b, hb⟩
  · obtain ⟨coercion, hcoercion⟩ := closed.coercionOf_eq_ok (mem_of_find? hd).1
    simp only [hd, hcoercion]
    exact ⟨_, rfl⟩
  · simp only [hd, hb]
    exact ⟨_, rfl⟩

/-! ## The search for shapes -/

theorem membersFor_eq_error {shapeOf : String → Shapes → Except RegistryError (Shape × Shapes)}
    {upper : Field → Shape → Option Nat} {fields : List Field}
    (h : membersFor shapeOf upper fields shapes = .error e) :
    ∃ f ∈ fields, ∃ shapes', shapeOf f.typeName shapes' = .error e := by
  induction fields generalizing shapes with
  | nil => cases h
  | cons f fields ih =>
      rcases error_of_bind h with hfirst | ⟨_, _, hrest⟩
      · exact ⟨f, List.mem_cons_self, shapes, hfirst⟩
      · rcases error_of_bind hrest with hrest | ⟨_, _, hlast⟩
        · obtain ⟨other, hother, hfails⟩ := ih hrest
          exact ⟨other, List.mem_cons_of_mem f hother, hfails⟩
        · cases hlast

def nestedShape (c : Catalog) (depth : Nat) (outer : List String) (d : Declaration)
    (shapes : Shapes) : Except RegistryError (Shape × Shapes) := do
  let inner := c.shapeOf depth outer d.name
  let (members, shapes) ← membersFor inner (fun f type => some (fieldEnd f type.size)) d.fields
    shapes
  let (last, shapes) ← membersFor inner (fun _ _ => none) d.flexible.toList shapes
  let shape := Shape.mk d.name d.size d.isUnion d.flexible.isSome (members ++ last)
  .ok (shape, shapes.insert d.name shape)

theorem shapeOf_declared {depth : Nat} {outer : List String} (hnew : shapes[d.name]? = none)
    (hresolve : c.resolve owner d.name = .ok t) (hd : t.declaration = some d) :
    c.shapeOf (depth + 1) outer owner d.name shapes =
      if d.name ∈ outer then .error (.cycle d.name)
      else c.nestedShape depth (d.name :: outer) d shapes := by
  rw [shapeOf, hnew, hresolve]
  by_cases houter : d.name ∈ outer
  · simp only [bind, Except.bind, hd, List.contains_iff_mem, if_pos houter]
  · simp only [bind, Except.bind, hd, List.contains_iff_mem, if_neg houter]
    rfl

theorem nestedShape_eq_error {depth : Nat} {outer : List String}
    (h : c.nestedShape depth outer d shapes = .error e) :
    ∃ f ∈ d.fields ++ d.flexible.toList, ∃ shapes',
      c.shapeOf depth outer d.name f.typeName shapes' = .error e := by
  rcases error_of_bind h with hfields | ⟨_, _, h⟩
  · obtain ⟨f, hf, hfails⟩ := membersFor_eq_error hfields
    exact ⟨f, List.mem_append_left _ hf, hfails⟩
  · rcases error_of_bind h with hlast | ⟨_, _, h⟩
    · obtain ⟨f, hf, hfails⟩ := membersFor_eq_error hlast
      exact ⟨f, List.mem_append_right _ hf, hfails⟩
    · cases h

theorem shapeOf_cases (closed : c.Closed) (named : c.Names name) (owner : String)
    (shapes : Shapes) :
    (∃ shape, ∀ depth outer, c.shapeOf (depth + 1) outer owner name shapes = .ok (shape, shapes)) ∨
      ∃ d ∈ c.declarations, d.name = name ∧ ∀ depth outer,
        c.shapeOf (depth + 1) outer owner d.name shapes =
          if d.name ∈ outer then .error (.cycle d.name)
          else c.nestedShape depth (d.name :: outer) d shapes := by
  cases hnew : shapes[name]? with
  | some shape => exact .inl ⟨shape, fun depth outer => by rw [shapeOf, hnew]⟩
  | none =>
      obtain ⟨t, hresolve⟩ := closed.resolve_eq_ok named owner
      cases hd : t.declaration with
      | none => exact .inl ⟨_, fun depth outer => shapeOf_of_builtin hnew hresolve hd⟩
      | some d =>
          obtain ⟨hlisted, rfl⟩ := mem_of_find? ((knows_of_resolve hresolve).2 d hd)
          exact .inr ⟨d, hlisted, rfl, fun depth outer => shapeOf_declared hnew hresolve hd⟩

theorem Embeds.declared {a b : String} (h : TransGen c.Embeds a b) :
    (c.find? a).isSome = true := by
  obtain ⟨_, ⟨d, listed, hname, _⟩, _⟩ := TransGen.head'_iff.mp h
  exact isSome_find?_iff.mpr ⟨d, listed, hname⟩

/-- The declarations that are open in the search embed the type searched for, so they are different
ones, and each level of the search opens one more. -/
structure Open (c : Catalog) (outer : List String) (depth : Nat) (name : String) : Prop where
  named : c.Names name
  nodup : outer.Nodup
  embeds : ∀ a ∈ outer, TransGen c.Embeds a name
  enough : c.declarations.length < depth + outer.length

theorem Open.depth_pos {outer : List String} {depth : Nat} (h : c.Open outer depth name) :
    0 < depth := by
  have hle := length_outer_le h.nodup fun a ha => Embeds.declared (h.embeds a ha)
  have henough := h.enough
  omega

theorem Open.inside {outer : List String} {depth : Nat} (h : c.Open outer (depth + 1) d.name)
    (closed : c.Closed) (listed : d ∈ c.declarations) (hnew : d.name ∉ outer) {f : Field}
    (hf : f ∈ d.fields ++ d.flexible.toList) : c.Open (d.name :: outer) depth f.typeName := by
  have hedge : c.Embeds d.name f.typeName := ⟨d, listed, rfl, f, hf, rfl⟩
  refine ⟨closed.fields d listed f hf, List.nodup_cons.mpr ⟨hnew, h.nodup⟩, ?_, ?_⟩
  · exact List.forall_mem_cons.mpr ⟨.single hedge, fun a ha => (h.embeds a ha).tail hedge⟩
  · have henough := h.enough
    rw [List.length_cons]
    omega

/-- The search fails at a type that is embedded in itself only: the depth is never used up. -/
theorem Open.cycle_of_error {outer : List String} {depth : Nat} (hopen : c.Open outer depth name)
    (closed : c.Closed) (h : c.shapeOf depth outer owner name shapes = .error e) :
    ∃ t, e = .cycle t ∧ TransGen c.Embeds t t := by
  induction depth generalizing outer owner name shapes with
  | zero => exact absurd hopen.depth_pos (Nat.lt_irrefl 0)
  | succ depth ih =>
      rcases shapeOf_cases closed hopen.named owner shapes with ⟨shape, hfound⟩ |
        ⟨d, listed, rfl, hsearch⟩
      · rw [hfound] at h
        cases h
      · rw [hsearch] at h
        by_cases houter : d.name ∈ outer
        · rw [if_pos houter] at h
          cases h
          exact ⟨d.name, rfl, hopen.embeds d.name houter⟩
        · rw [if_neg houter] at h
          obtain ⟨f, hf, shapes', hfails⟩ := nestedShape_eq_error h
          exact ih (hopen.inside closed listed houter hf) hfails

theorem membersFor_congr {first second : String → Shapes → Except RegistryError (Shape × Shapes)}
    {upper : Field → Shape → Option Nat} {fields : List Field}
    (heq : ∀ f ∈ fields, first f.typeName = second f.typeName) :
    membersFor first upper fields = membersFor second upper fields := by
  induction fields with
  | nil => rfl
  | cons f fields ih =>
      obtain ⟨hfirst, hrest⟩ := List.forall_mem_cons.mp heq
      funext shapes
      simp only [membersFor, hfirst, ih hrest]

/-- More depth than the search may need changes nothing. -/
theorem Open.shapeOf_succ {outer : List String} {depth : Nat} (hopen : c.Open outer depth name)
    (closed : c.Closed) (owner : String) :
    c.shapeOf (depth + 1) outer owner name = c.shapeOf depth outer owner name := by
  induction depth generalizing outer owner name with
  | zero => exact absurd hopen.depth_pos (Nat.lt_irrefl 0)
  | succ depth ih =>
      funext shapes
      rcases shapeOf_cases closed hopen.named owner shapes with ⟨shape, hfound⟩ |
        ⟨d, listed, rfl, hsearch⟩
      · rw [hfound, hfound]
      · rw [hsearch, hsearch]
        by_cases houter : d.name ∈ outer
        · rw [if_pos houter, if_pos houter]
        · rw [if_neg houter, if_neg houter]
          have hinner (f : Field) (hf : f ∈ d.fields ++ d.flexible.toList) :
              c.shapeOf (depth + 1) (d.name :: outer) d.name f.typeName =
                c.shapeOf depth (d.name :: outer) d.name f.typeName :=
            ih (hopen.inside closed listed houter hf) d.name
          simp only [nestedShape,
            membersFor_congr fun f hf => hinner f (List.mem_append_left _ hf),
            membersFor_congr fun f hf => hinner f (List.mem_append_right _ hf)]

def shapesTo (c : Catalog) (depth : Nat) : Except RegistryError Shapes :=
  c.declarations.foldlM (fun shapes d => do
    let (_, shapes) ← c.shapeOf depth [] d.name d.name shapes
    .ok shapes) {}

theorem open_nil {depth : Nat} (listed : d ∈ c.declarations)
    (hdepth : c.declarations.length < depth) : c.Open [] depth d.name :=
  ⟨.inl ⟨d, listed, rfl⟩, .nil, nofun, hdepth⟩

theorem shapesTo_eq_shapes (closed : c.Closed) {depth : Nat}
    (hdepth : c.declarations.length < depth) : c.shapesTo depth = c.shapes := by
  induction hdepth with
  | refl => rfl
  | @step depth hdepth ih =>
      rw [← ih]
      refine foldlM_congr (fun d listed shapes => ?_) _
      rw [(open_nil listed hdepth).shapeOf_succ closed d.name]

theorem cycle_of_shapes_error (closed : c.Closed) (h : c.shapes = .error e) :
    ∃ t, e = .cycle t ∧ TransGen c.Embeds t t := by
  obtain ⟨d, listed, shapes, hstep⟩ := step_of_foldlM_error h
  rcases error_of_bind hstep with hfails | ⟨_, _, hlast⟩
  · exact (open_nil listed (Nat.lt_succ_self _)).cycle_of_error closed hfails
  · cases hlast

/-! ## Shapes of types that are embedded -/

theorem Embeds.shapeWithin {a b : String} {depth : Nat} (h : c.Embeds a b)
    (hnames : (c.declarations.map (·.name)).Nodup)
    (hshape : (c.shapeWithin (depth + 1) a).isSome = true) :
    (c.shapeWithin depth b).isSome = true := by
  obtain ⟨d, listed, rfl, f, hf, rfl⟩ := h
  obtain ⟨shape, hshape⟩ := Option.isSome_iff_exists.mp hshape
  obtain ⟨t, hresolve, hcases⟩ := shapeWithin_eq_some hshape
  have hd := declaration_of_resolve hresolve
  rw [show c.find? d.name = some d from find?_of_nodup hnames listed] at hd
  rcases hcases with ⟨hnone, _⟩ | ⟨d', members, last, hd', hmembers, hlast, _⟩
  · cases hd.symm.trans hnone
  · obtain rfl := Option.some.inj (hd.symm.trans hd')
    rcases List.mem_append.mp hf with hfield | hflexible
    · exact shape_of_membersOf hmembers f hfield
    · exact shape_of_membersOf hlast f hflexible

theorem isSome_shapeWithin_of_transGen {a b : String} (h : TransGen c.Embeds a b)
    (hnames : (c.declarations.map (·.name)).Nodup) {depth : Nat}
    (hshape : (c.shapeWithin (depth + 1) a).isSome = true) :
    (c.shapeWithin depth b).isSome = true := by
  induction h with
  | single hedge => exact hedge.shapeWithin hnames hshape
  | tail _ hedge ih =>
      cases depth with
      | zero => cases ih
      | succ depth =>
          have hinner := hedge.shapeWithin hnames ih
          obtain ⟨shape, hshape⟩ := Option.isSome_iff_exists.mp hinner
          rw [shapeWithin_succ hshape]
          rfl

/-- A type that is embedded in itself has no shape, since the shape would have to be found at any
lesser depth. -/
theorem shapeWithin_of_cycle {a : String} (h : TransGen c.Embeds a a)
    (hnames : (c.declarations.map (·.name)).Nodup) (depth : Nat) :
    c.shapeWithin depth a = none := by
  induction depth with
  | zero => rfl
  | succ depth ih =>
      rw [← Option.not_isSome_iff_eq_none]
      intro hshape
      have hless := isSome_shapeWithin_of_transGen h hnames hshape
      rw [ih] at hless
      cases hless

theorem shapes_ne_ok_of_cycle {a : String} (h : TransGen c.Embeds a a)
    (hnames : (c.declarations.map (·.name)).Nodup) : c.shapes ≠ .ok shapes := by
  intro hshapes
  obtain ⟨d, hd⟩ := Option.isSome_iff_exists.mp (Embeds.declared h)
  obtain ⟨listed, rfl⟩ := mem_of_find? hd
  obtain ⟨shape, _, depth, hshape⟩ := shapes_eq_ok hshapes listed
  cases (shapeWithin_of_cycle h hnames depth).symm.trans hshape

/-! ## Layouts that are nested too deep -/

theorem coercionOf_eq_error (h : c.coercionOf d = .error e) : ∃ ty, e = .unknownType d.name ty := by
  unfold coercionOf at h
  split at h
  · cases h
  · next name _ =>
    split at h
    · cases h
    · cases h
    · exact ⟨name, (Except.error.inj h).symm⟩

theorem resolve_eq_error (h : c.resolve owner name = .error e) : ∃ o ty, e = .unknownType o ty := by
  unfold resolve at h
  split at h
  · rcases error_of_bind h with hcoercion | ⟨_, _, h⟩
    · obtain ⟨ty, rfl⟩ := coercionOf_eq_error hcoercion
      exact ⟨_, ty, rfl⟩
    · cases h
  · cases h
  · exact ⟨owner, name, (Except.error.inj h).symm⟩

theorem layElements_eq_error {top : String} {entries : Nat → List Layout.Entry}
    {inside : Nat → Array Layout.Entry → Except RegistryError (Array Layout.Entry)} {count i : Nat}
    {out : Array Layout.Entry} (h : layElements top entries inside count i out = .error e) :
    e = .layoutTooLarge top ∨ ∃ k out', inside k out' = .error e := by
  induction count generalizing i out with
  | zero => cases h
  | succ count ih =>
      simp only [layElements] at h
      split at h
      · exact .inl (Except.error.inj h).symm
      · rcases error_of_bind h with hinside | ⟨_, _, hrest⟩
        · exact .inr ⟨_, _, hinside⟩
        · exact ih hrest

theorem embeds_of_resolve {f : Field} {child : Declaration} (listed : d ∈ c.declarations)
    (hf : f ∈ d.fields ++ d.flexible.toList) (hresolve : c.resolve owner f.typeName = .ok t)
    (hchild : t.declaration = some child) :
    child ∈ c.declarations ∧ c.Embeds d.name child.name := by
  obtain ⟨hlisted, hname⟩ := mem_of_find? ((knows_of_resolve hresolve).2 child hchild)
  exact ⟨hlisted, d, listed, rfl, f, hf, hname.symm⟩

/-- Laying out reports a cycle only where the depth is used up. -/
theorem nests_of_layFields {top : String} {depth base : Nat} {out : Array Layout.Entry}
    (listed : d ∈ c.declarations) (h : c.layFields top depth d base out = .error (.cycle name)) :
    name = top ∧ c.Nests depth d.name := by
  induction depth generalizing d base out with
  | zero =>
      cases h
      exact ⟨rfl, .whole listed⟩
  | succ depth ih =>
      obtain ⟨f, hf, _, hstep⟩ := step_of_foldlM_error h
      rcases error_of_bind hstep with hresolve | ⟨target, hresolve, hstep⟩
      · obtain ⟨_, _, h⟩ := resolve_eq_error hresolve
        cases h
      rcases error_of_bind hstep with hfinish | ⟨finish, _, hstep⟩
      · exact absurd hfinish (elementsEnd?_ne_error nofun)
      · split at hstep
        · cases hstep
        · rcases layElements_eq_error hstep with h | ⟨k, out', hinside⟩
          · cases h
          · cases hchild : target.declaration with
            | none =>
                simp only [hchild] at hinside
                cases hinside
            | some child =>
                simp only [hchild] at hinside
                obtain ⟨hlisted, hedge⟩ :=
                  embeds_of_resolve listed (List.mem_append_left _ hf) hresolve hchild
                obtain ⟨htop, hnests⟩ := ih hlisted hinside
                exact ⟨htop, .inside hedge hnests⟩

theorem nests_of_layFlexible {out : Array Layout.Entry} (listed : d ∈ c.declarations)
    (h : c.layFlexible d out = .error (.cycle name)) :
    name = d.name ∧ c.Nests (mostDepth + 1) d.name := by
  unfold layFlexible at h
  cases hf : d.flexible with
  | none =>
      simp only [hf] at h
      cases h
  | some f =>
      simp only [hf] at h
      rcases error_of_bind h with hresolve | ⟨target, hresolve, h⟩
      · obtain ⟨_, _, h⟩ := resolve_eq_error hresolve
        cases h
      · cases hchild : target.declaration with
        | none =>
            simp only [hchild] at h
            cases h
        | some child =>
            simp only [hchild] at h
            rcases error_of_bind h with hinside | ⟨_, _, hlast⟩
            · have hmem : f ∈ d.fields ++ d.flexible.toList := by simp [hf]
              obtain ⟨hlisted, hedge⟩ := embeds_of_resolve listed hmem hresolve hchild
              obtain ⟨htop, hnests⟩ := nests_of_layFields hlisted hinside
              exact ⟨htop, .inside hedge hnests⟩
            · cases hlast

theorem nests_of_recordOf (listed : d ∈ c.declarations)
    (h : c.recordOf shapes d = .error (.cycle name)) :
    name = d.name ∧ c.Nests (mostDepth + 1) d.name := by
  rcases error_of_bind h with hcoercion | ⟨_, _, h⟩
  · obtain ⟨_, h⟩ := coercionOf_eq_error hcoercion
    cases h
  · rcases error_of_bind h with hfields | ⟨_, _, h⟩
    · exact nests_of_layFields listed hfields
    · rcases error_of_bind h with hlast | ⟨_, _, h⟩
      · exact nests_of_layFlexible listed hlast
      · dsimp only at h
        split at h
        · cases h
        · split at h
          · cases h
          · cases h
          · cases h

theorem Registry.insert_ne_cycle {r : Registry} {record : TypeRecord} :
    r.insert record ≠ .error (.cycle name) := by
  unfold Registry.insert
  split
  · exact nofun
  · split
    · exact nofun
    · exact nofun

/-! ## Building -/

/-- If all names that declarations refer to are those of types, then building comes to an end, and
the depth of its search decides nothing. If a type is embedded in itself, the answer is the name of
such a type. If none is, no name is refused as a cycle but that of a type in which declared types
are nested more than `mostDepth` levels deep. -/
theorem cycles_found {hasher : NameHasher} {ds : List Declaration}
    (accepted : (empty hasher).declareAll ds = .ok c) (closed : c.Closed) :
    (∀ depth, c.declarations.length < depth → c.shapesTo depth = c.shapes) ∧
      ((∃ t, TransGen c.Embeds t t) →
        ∃ t, c.build = .error (.cycle t) ∧ TransGen c.Embeds t t) ∧
      ((∀ t, ¬ TransGen c.Embeds t t) →
        ∀ t, c.build = .error (.cycle t) → c.Nests (mostDepth + 1) t) := by
  obtain ⟨rfl, hdeclarable⟩ := declareAll_eq_ok_iff.mp accepted
  refine ⟨fun depth hdepth => shapesTo_eq_shapes closed hdepth, fun hcycle => ?_,
    fun hacyclic t hbuild => ?_⟩
  · obtain ⟨a, ha⟩ := hcycle
    cases hshapes : (⟨hasher, ds⟩ : Catalog).shapes with
    | ok shapes => exact absurd hshapes (shapes_ne_ok_of_cycle ha hdeclarable.names)
    | error e =>
        obtain ⟨t, rfl, ht⟩ := cycle_of_shapes_error closed hshapes
        refine ⟨t, ?_, ht⟩
        rw [build, hshapes]
        rfl
  · rcases error_of_bind hbuild with hshapes | ⟨shapes, _, hbuild⟩
    · obtain ⟨a, _, ha⟩ := cycle_of_shapes_error closed hshapes
      exact absurd ha (hacyclic a)
    · rcases error_of_bind hbuild with hrecords | ⟨records, _, hinsert⟩
      · obtain ⟨d, listed, hrecord⟩ := error_of_mapM hrecords
        obtain ⟨rfl, hnests⟩ := nests_of_recordOf listed hrecord
        exact hnests
      · obtain ⟨_, _, _, hstep⟩ := step_of_foldlM_error hinsert
        exact absurd hstep Registry.insert_ne_cycle

def knot : Declaration := (Declaration.ofSize "struct knot" 4).withArray "ropes" "struct rope" 8 0

def rope : Declaration := (Declaration.ofSize "struct rope" 0).withFlexible "knots" "struct knot" 16

/-- Two types that embed each other: in a field of no elements, which lies outside its type, and in
a flexible array. -/
def tangled : Catalog := ⟨NameHasher.spread, [knot, rope]⟩

theorem tangled_cycle_found : (empty .spread).declareAll [knot, rope] = .ok tangled ∧ tangled.Closed ∧
    TransGen tangled.Embeds "struct rope" "struct rope" ∧
      ∃ t, tangled.build = .error (.cycle t) ∧ TransGen tangled.Embeds t t := by
  have haccepted : (empty .spread).declareAll [knot, rope] = .ok tangled := rfl
  have hclosed : tangled.Closed := ⟨by decide +kernel, by decide +kernel⟩
  have hknots : tangled.Embeds "struct rope" "struct knot" :=
    ⟨rope, by simp [tangled], rfl, _, List.mem_cons_self, rfl⟩
  have hropes : tangled.Embeds "struct knot" "struct rope" :=
    ⟨knot, by simp [tangled], rfl, _, List.mem_cons_self, rfl⟩
  have hcycle : TransGen tangled.Embeds "struct rope" "struct rope" := .tail (.single hknots) hropes
  obtain ⟨_, hfound, _⟩ := cycles_found haccepted hclosed
  exact ⟨haccepted, hclosed, hcycle, hfound ⟨_, hcycle⟩⟩

end TypedHeap.Catalog
