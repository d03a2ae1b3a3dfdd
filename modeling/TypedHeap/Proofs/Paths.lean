import TypedHeap.Proofs.Fitting
import TypedHeap.Proofs.Reordering
import TypedHeap.Proofs.Shapes
import TypedHeap.Shape.Path

/-! # Where access paths lead

The path that is given for an offset leads there: its element, the steps and the bytes left over add
up to the offset. Each step enters the first member that covers what is left, at one of its
elements, and the path goes on until no member does.
-/

namespace TypedHeap

/-! ## Sizes as words -/

/-- The sizes that declarations give are words of 32 bits. -/
def Catalog.Narrow (c : Catalog) : Prop := ∀ d ∈ c.declarations, d.size ≤ lastOffset

theorem Json.Value.unsigned?_le {bits n : Nat} {v : Json.Value} (h : v.unsigned? bits = some n) :
    n ≤ 2 ^ bits - 1 := by
  obtain ⟨i, hi, rfl⟩ := Option.map_eq_some_iff.mp h
  unfold intWithin? at hi
  split at hi
  · obtain ⟨hwithin, hi⟩ := Option.ite_none_right_eq_some.mp hi
    obtain rfl := Option.some.inj hi
    have hpos := Nat.two_pow_pos bits
    have hcast : ((2 ^ bits : Nat) : Int) = 2 ^ bits := by norm_cast
    omega
  · cases hi

theorem Declaration.size_le_of_ofJson? {v : Json.Value} {d : Declaration} (h : ofJson? v = some d) :
    d.size ≤ Catalog.lastOffset := by
  unfold ofJson? at h
  obtain ⟨vs, _, h⟩ := Option.bind_eq_some_iff.mp h
  split at h
  · simp only [Option.bind_eq_bind, Option.bind_eq_some_iff, Option.some.injEq] at h
    obtain ⟨_, _, _, _, _, _, size, hsize, _, _, _, _, _, _, _, _, rfl⟩ := h
    obtain ⟨v, _, hv⟩ := Option.bind_eq_some_iff.mp hsize
    exact Json.Value.unsigned?_le hv
  · cases h

/-- All catalogs that are read from a document are narrow. -/
theorem Catalog.narrow_of_parse {hasher : NameHasher} {text : String} {c : Catalog}
    (h : parse hasher text = .ok c) : c.Narrow := by
  unfold parse at h
  split at h
  · cases h
  · next ds hds =>
    obtain ⟨rfl, _⟩ := declareAll_eq_ok_iff.mp h
    obtain ⟨v, _, hv⟩ := Option.bind_eq_some_iff.mp hds
    obtain ⟨vs, _, hv⟩ := Option.bind_eq_some_iff.mp hv
    split at hv
    · obtain ⟨types, _, htypes⟩ := Option.bind_eq_some_iff.mp hv
      obtain ⟨items, _, hitems⟩ := Option.bind_eq_some_iff.mp htypes
      intro d hd
      obtain ⟨item, _, hitem⟩ := mem_of_mapM hitems hd
      exact Declaration.size_le_of_ofJson? hitem
    · cases hv

/-! ## Shapes with whole elements -/

/-- The member covers a number of whole elements, if it has an end. -/
def Member.Exact (m : Member) : Prop :=
  ∀ upper, m.upper = some upper → ∃ n, upper = m.lower + n * m.type.size

/-- All members cover whole elements, at any depth. -/
inductive Shape.Regular : Shape → Prop where
  | of {s : Shape} (exact : ∀ m ∈ s.members, m.Exact) (inner : ∀ m ∈ s.members, m.type.Regular) :
      s.Regular

theorem Shape.Regular.primitive (name : String) (size : Nat) :
    (Shape.primitive name size).Regular := .of nofun nofun

/-- The steps lead from `offset` in an object of the shape to `rest` in one with no member there. -/
inductive Shape.Walks : Shape → Nat → List AccessPath.Step → Nat → Prop where
  | ends {s : Shape} {offset : Nat} (uncovered : ∀ m ∈ s.members, ¬ m.contains offset = true) :
      s.Walks offset [] offset
  | enters {s : Shape} {m : Member} {front back : List Member} {offset index inner rest : Nat}
      {steps : List AccessPath.Step} (members_eq : s.members = front ++ m :: back)
      (first : ∀ other ∈ front, ¬ other.contains offset = true) (covers : m.contains offset = true)
      (offset_eq : offset = m.lower + index * m.stride + inner) (inner_lt : inner < m.stride)
      (below : ∀ n, m.count = some n → index < n) (onward : m.type.Walks inner steps rest) :
      s.Walks offset (⟨m, index⟩ :: steps) rest

namespace Member

variable {m : Member} {offset n : Nat}

theorem contains_iff : m.contains offset = true ↔
    m.lower ≤ offset ∧ ∀ upper, m.upper = some upper → offset < upper := by
  simp [contains, Option.all_eq_true]

theorem stride_pos (m : Member) : 0 < m.stride := by
  unfold stride
  omega

theorem Exact.index_lt (h : m.Exact) (covers : m.contains offset = true)
    (hcount : m.count = some n) : (offset - m.lower) / m.stride < n := by
  obtain ⟨upper, hupper, hn⟩ := Option.map_eq_some_iff.mp hcount
  obtain ⟨k, hk⟩ := h upper hupper
  obtain ⟨hlower, hbelow⟩ := contains_iff.mp covers
  have hlt := hbelow upper hupper
  by_cases hzero : m.type.size = 0
  · rw [hzero, Nat.mul_zero] at hk
    omega
  · have hcover : upper - m.lower = k * m.type.size := by omega
    rw [if_neg hzero, hcover, Nat.mul_div_cancel _ (Nat.pos_of_ne_zero hzero)] at hn
    have hstride : m.stride = m.type.size := by
      unfold stride
      omega
    rw [← hn, hstride, Nat.div_lt_iff_lt_mul (Nat.pos_of_ne_zero hzero)]
    omega

theorem descendFirst_of_none {members : List Member}
    (h : members.find? (·.contains offset) = none) :
    descendFirst members offset = ([], offset) := by
  induction members with
  | nil => rw [descendFirst]
  | cons first members ih =>
      obtain ⟨name, type, lower, upper⟩ := first
      rw [List.find?_cons] at h
      split at h
      · cases h
      · next hnot =>
        rw [descendFirst, hnot, if_neg Bool.false_ne_true]
        exact ih h

theorem descendFirst_of_some {members : List Member}
    (h : members.find? (·.contains offset) = some m) :
    descendFirst members offset =
      (⟨m, (offset - m.lower) / m.stride⟩ ::
        (m.type.descend ((offset - m.lower) % m.stride)).1,
        (m.type.descend ((offset - m.lower) % m.stride)).2) := by
  induction members with
  | nil => cases h
  | cons first members ih =>
      obtain ⟨name, type, lower, upper⟩ := first
      rw [List.find?_cons] at h
      split at h
      · next hcovers =>
        obtain rfl := Option.some.inj h
        rw [descendFirst, if_pos hcovers]
        rfl
      · next hnot =>
        rw [descendFirst, hnot, if_neg Bool.false_ne_true]
        exact ih h

end Member

namespace Shape

variable {s : Shape} {offset rest : Nat} {steps : List AccessPath.Step}

theorem descend_eq (s : Shape) (offset : Nat) :
    s.descend offset = Member.descendFirst s.members offset := by
  cases s
  rw [descend]
  rfl

/-- The descent through a regular shape goes from first member to first member. -/
theorem Regular.walks (h : s.Regular) (offset : Nat) :
    s.Walks offset (s.descend offset).1 (s.descend offset).2 := by
  -- on the shape: what is left of the offset is looked for in the type of the member found
  induction h generalizing offset with
  | @of s exact _ ih =>
      rw [descend_eq]
      cases hfind : s.members.find? (·.contains offset) with
      | none =>
          rw [Member.descendFirst_of_none hfind]
          exact .ends (List.find?_eq_none.mp hfind)
      | some m =>
          obtain ⟨covers, front, back, members_eq, first⟩ := List.find?_eq_some_iff_append.mp hfind
          have hmem : m ∈ s.members := List.mem_of_find?_eq_some hfind
          have hlower := (Member.contains_iff.mp covers).1
          have hsplit := Nat.div_add_mod' (offset - m.lower) m.stride
          rw [Member.descendFirst_of_some hfind]
          have hfront : ∀ other ∈ front, ¬ other.contains offset = true := by simpa using first
          refine .enters members_eq hfront covers ?_ (Nat.mod_lt _ m.stride_pos) ?_ (ih m hmem _)
          · omega
          · exact fun n hn => (exact m hmem).index_lt covers hn

end Shape

namespace AccessPath

def distance : List Step → Nat
  | [] => 0
  | step :: steps => step.member.lower + step.index * step.member.stride + distance steps

/-- The path leads to `offset` in consecutive objects of the shape. -/
structure LeadsTo (path : AccessPath) (s : Shape) (offset : Nat) : Prop where
  root_eq : path.root = s.name
  offset_eq : path.element.getD 0 * s.size + distance path.steps + path.rest = offset
  walks : s.Walks (offset - path.element.getD 0 * s.size) path.steps path.rest
  /-- The element is the one that the offset lies in, unless the shape has no end of its own. -/
  within : 0 < s.size → s.flexible = false → offset - path.element.getD 0 * s.size < s.size
  /-- No index that is left out says anything. -/
  element_pos (k : Nat) : path.element = some k → 0 < k
  index_eq_zero : ∀ step ∈ path.steps, step.member.isArray = false → step.index = 0

end AccessPath

namespace Shape

variable {s : Shape} {offset rest : Nat} {steps : List AccessPath.Step}

theorem Walks.distance_add (h : s.Walks offset steps rest) :
    AccessPath.distance steps + rest = offset := by
  induction h with
  | ends => exact Nat.zero_add _
  | enters _ _ _ offset_eq _ _ _ ih =>
      rw [AccessPath.distance, Nat.add_assoc, ih, offset_eq]

theorem Walks.index_eq_zero (h : s.Walks offset steps rest) :
    ∀ step ∈ steps, step.member.isArray = false → step.index = 0 := by
  induction h with
  | ends => exact nofun
  | @enters _ m _ _ _ _ _ _ _ _ _ _ _ _ below _ ih =>
      refine List.forall_mem_cons.mpr ⟨fun hsingle => ?_, ih⟩
      have hcount : m.count = some 1 := by simpa [Member.isArray] using hsingle
      exact Nat.lt_one_iff.mp (below 1 hcount)

theorem pathTo_of_wraps (h : s.wrapsAt offset = true) :
    s.pathTo offset = ⟨s.name, some (offset / s.size), (s.descend (offset % s.size)).1,
      (s.descend (offset % s.size)).2⟩ := if_pos h

theorem pathTo_of_not_wraps (h : ¬ s.wrapsAt offset = true) :
    s.pathTo offset = ⟨s.name, none, (s.descend offset).1, (s.descend offset).2⟩ := if_neg h

theorem Regular.leadsTo (h : s.Regular) (offset : Nat) : (s.pathTo offset).LeadsTo s offset := by
  by_cases hwraps : s.wrapsAt offset = true
  · have hwalks := h.walks (offset % s.size)
    have hpast : 0 < s.size ∧ s.size ≤ offset := by
      simp only [wrapsAt, Bool.and_eq_true, decide_eq_true_eq] at hwraps
      exact hwraps.1
    have hsplit := Nat.div_add_mod' offset s.size
    have hlocal : offset - offset / s.size * s.size = offset % s.size := by omega
    rw [pathTo_of_wraps hwraps]
    constructor
    case root_eq => rfl
    case offset_eq =>
      show offset / s.size * s.size + _ + _ = offset
      rw [Nat.add_assoc, hwalks.distance_add, hsplit]
    case walks =>
      show s.Walks (offset - offset / s.size * s.size) _ _
      rw [hlocal]
      exact hwalks
    case within =>
      intro hpos _
      show offset - offset / s.size * s.size < s.size
      rw [hlocal]
      exact Nat.mod_lt offset hpos
    case element_pos =>
      intro k hk
      obtain rfl := Option.some.inj hk
      exact Nat.div_pos hpast.2 hpast.1
    case index_eq_zero => exact hwalks.index_eq_zero
  · have hwalks := h.walks offset
    have hlocal : offset - (none : Option Nat).getD 0 * s.size = offset := by simp
    rw [pathTo_of_not_wraps hwraps]
    constructor
    case root_eq => rfl
    case offset_eq => simpa using hwalks.distance_add
    case walks =>
      rw [hlocal]
      exact hwalks
    case within =>
      intro hpos hflexible
      rw [hlocal]
      simp only [wrapsAt, hflexible, Bool.not_false, Bool.and_true, Bool.and_eq_true,
        decide_eq_true_eq] at hwraps
      omega
    case element_pos => exact nofun
    case index_eq_zero => exact hwalks.index_eq_zero

end Shape

namespace Catalog

variable {c : Catalog} {d : Declaration} {t : Target} {registry : Registry} {shapes : Shapes}
  {records : List TypeRecord} {record : TypeRecord} {name : String} {shape : Shape} {depth : Nat}

theorem resolve_of_shapeWithin (h : c.shapeWithin depth name = some shape) (owner : String) :
    ∃ t, c.resolve owner name = .ok t ∧ shape.size = t.size := by
  cases depth with
  | zero => cases h
  | succ depth =>
      obtain ⟨t, hresolve, hcases⟩ := shapeWithin_eq_some h
      refine ⟨t, resolve_owner hresolve owner, ?_⟩
      rcases hcases with ⟨_, rfl⟩ | ⟨d, members, last, declared, _, _, rfl⟩
      · rfl
      · exact ((knows_of_resolve hresolve).1.size_eq declared).2.symm

theorem fieldEnd_eq {f : Field} {size : Nat} (h : f.offset + f.count * size ≤ lastOffset) :
    fieldEnd f size = f.offset + f.count * size := by
  unfold fieldEnd
  omega

theorem regular_of_shapeWithin (fit : c.FieldsFit) (narrow : c.Narrow)
    (h : c.shapeWithin depth name = some shape) : shape.Regular := by
  induction depth generalizing name shape with
  | zero => cases h
  | succ depth ih =>
      obtain ⟨t, hresolve, hcases⟩ := shapeWithin_eq_some h
      rcases hcases with ⟨_, rfl⟩ | ⟨d, members, last, declared, hmembers, hlast, rfl⟩
      · exact .primitive _ _
      · have hd := ((knows_of_resolve hresolve).1.size_eq declared).1
        constructor
        case exact =>
          intro m hm upper hupper
          rcases List.mem_append.mp hm with hfixed | hflexible
          · obtain ⟨f, hf, type, htype, rfl⟩ := mem_membersOf hmembers hfixed
            obtain ⟨target, named, hsize⟩ := resolve_of_shapeWithin htype d.name
            have hfits := fit d hd f hf target named
            have hnarrow := narrow d hd
            rw [← hsize] at hfits
            refine ⟨f.count, ?_⟩
            rw [← Option.some.inj hupper]
            exact fieldEnd_eq (Nat.le_trans hfits hnarrow)
          · obtain ⟨f, _, type, _, rfl⟩ := mem_membersOf hlast hflexible
            cases hupper
        case inner =>
          intro m hm
          rcases List.mem_append.mp hm with hfixed | hflexible
          · obtain ⟨f, _, type, htype, rfl⟩ := mem_membersOf hmembers hfixed
            exact ih htype
          · obtain ⟨f, _, type, htype, rfl⟩ := mem_membersOf hlast hflexible
            exact ih htype

theorem Built.hasShape (h : c.Built shapes records registry) (hd : d ∈ c.declarations)
    (hrecord : c.recordOf shapes d = .ok record) : c.HasShape d.name record.shape := by
  obtain ⟨_, _, _, _, _, shape, _, _, _, _, hshape, rfl⟩ := recordOf_eq_ok hrecord
  obtain ⟨found, hfound, hnested⟩ := shapes_eq_ok h.found hd
  obtain rfl := Option.some.inj (hshape.symm.trans hfound)
  exact hnested

theorem Built.regular (h : c.Built shapes records registry) (narrow : c.Narrow)
    (hr : record ∈ registry.records) : record.shape.Regular := by
  rcases h.origin_of_mem hr with ⟨b, _, rfl⟩ | ⟨d, hd, hrecord⟩
  · exact .primitive _ _
  · obtain ⟨depth, hdepth⟩ := h.hasShape hd hrecord
    exact regular_of_shapeWithin h.fieldsFit narrow hdepth

/-- What is said of an offset into objects of a registered type is a path that leads there, through
the shape that the declaration gives the type. -/
theorem describe_leads_to (built : c.build = .ok registry) (narrow : c.Narrow) {hash : TypeHash}
    (hfind : registry.find? hash = some record) :
    (∀ d ∈ c.declarations, d.typeHash c.hasher = hash → c.HasShape d.name record.shape) ∧
      ∀ offset, ∃ path : AccessPath, record.shape.describe offset = path.render ∧
        path.LeadsTo record.shape offset := by
  obtain ⟨shapes, records, h⟩ := build_eq_ok built
  refine ⟨fun d hd hhash => ?_, fun offset => ⟨record.shape.pathTo offset, rfl, ?_⟩⟩
  · rw [← hhash] at hfind
    exact h.hasShape hd (h.recordOf_of_find? hd hfind)
  · rcases Registry.mem_of_find? hfind with rfl | hmem
    · exact (Shape.Regular.primitive _ _).leadsTo offset
    · exact (h.regular narrow hmem).leadsTo offset

/-- The first element of the array in the second pair of the second structure. -/
theorem nested_describe_leads_to : nested.build = .ok nestedRegistry ∧ nested.Narrow ∧
    ∃ record, nestedRegistry.find? outerType.hash = some record ∧
      nested.HasShape "struct outer" record.shape ∧
      record.shape.describe 56 = "struct outer[1].p[1].data[0]" ∧
      ∃ path : AccessPath, record.shape.describe 56 = path.render ∧
        path.LeadsTo record.shape 56 := by
  have hnarrow : nested.Narrow := by
    unfold Narrow
    decide
  have hdescribed : (nestedRegistry.find? outerType.hash).map (·.shape.describe 56) =
      some "struct outer[1].p[1].data[0]" := by decide +kernel
  obtain ⟨record, hfind, htext⟩ := Option.map_eq_some_iff.mp hdescribed
  obtain ⟨hshape, hleads⟩ := describe_leads_to nested_build hnarrow hfind
  have hlisted : outer ∈ nested.declarations := List.mem_cons_of_mem _ List.mem_cons_self
  exact ⟨nested_build, hnarrow, record, hfind, hshape outer hlisted rfl, htext, hleads 56⟩

end Catalog

end TypedHeap
