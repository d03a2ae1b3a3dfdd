import Mathlib.Data.List.Induction
import TypedHeap.Proofs.Rereading
import TypedHeap.Proofs.Reordering
import TypedHeap.Proofs.Spellings

/-! # Declarations that are written and read

A declaration is read back from its JSON text, and a document of such texts declares what they
describe, one after the other. The numbers of a declaration are taken to have 32 bits, which is
all that is read.
-/

namespace TypedHeap

open Json

namespace Json

/-! ## Reading parts of a value -/

theorem mapM_of_forall {α β : Type} {f : α → Option β} {g : α → β} {l : List α}
    (h : ∀ a ∈ l, f a = some (g a)) : l.mapM f = some (l.map g) := by
  induction l with
  | nil => rfl
  | cons a l ih =>
      obtain ⟨ha, hl⟩ := List.forall_mem_cons.mp h
      rw [List.mapM_cons, ha, ih hl]
      rfl

theorem filter_of_nodup {ms : List (String × Value)} (hnodup : (ms.map Prod.fst).Nodup)
    {m : String × Value} (hm : m ∈ ms) : ms.filter (·.1 = m.1) = [m] := by
  induction ms with
  | nil => cases hm
  | cons l ms ih =>
      obtain ⟨hl, hnodup⟩ := List.nodup_cons.mp hnodup
      rcases List.mem_cons.mp hm with rfl | hm
      · have hrest : ms.filter (·.1 = m.1) = [] :=
          List.filter_eq_nil_iff.mpr fun k hk heq =>
            hl (of_decide_eq_true heq ▸ List.mem_map_of_mem hk)
        rw [List.filter_cons_of_pos (by simp), hrest]
      · have hne : l.1 ≠ m.1 := fun heq => hl (heq ▸ List.mem_map_of_mem hm)
        rw [List.filter_cons_of_neg (by simpa using hne), ih hnodup hm]

theorem Value.fields?_ofMembers (ms : List (String × Value)) (hnodup : (ms.map Prod.fst).Nodup) :
    (Value.ofMembers ms).fields? (ms.map Prod.fst) = some (ms.map fun m => some m.2) := by
  have hnamed : (ms.map fun m => (some m.1, m.2)).all (·.1.isSome) = true := by simp
  rw [ofMembers, fields?, if_pos hnamed, List.mapM_map]
  refine mapM_of_forall fun m hm => ?_
  have hfilter : (ms.map fun m => (some m.1, m.2)).filter (·.1 = some m.1) =
      [(some m.1, m.2)] := by
    simpa [List.filter_map, Function.comp_def] using filter_of_nodup hnodup hm
  rw [Function.comp_apply, hfilter]

theorem Value.unsigned?_nat {bits n : Nat} (h : n < 2 ^ bits) :
    (Value.nat n).unsigned? bits = some n := by
  have hmost : (n : Int) ≤ 2 ^ bits - 1 := by
    have hpow : ((2 ^ bits : Nat) : Int) = 2 ^ bits := by simp
    omega
  simp [nat, unsigned?, intWithin?, hmost]

theorem listOf_map {α : Type} {read : Value → Option α} {write : α → Value} {l : List α}
    (h : ∀ a ∈ l, read (write a) = some a) : listOf read (.list (l.map write)) = some l := by
  have hread : (l.map write).mapM read = some (l.map id) := by
    rw [List.mapM_map]
    exact mapM_of_forall h
  simpa [listOf, Value.list?] using hread

theorem nullable_ofOption {α : Type} {read : Value → Option α} {write : α → Value} {o : Option α}
    (h : ∀ a ∈ o, write a ≠ .null ∧ read (write a) = some a) :
    nullable read (.ofOption write o) = some o := by
  cases o with
  | none => rfl
  | some a =>
      obtain ⟨hnull, hread⟩ := h a rfl
      rw [Value.ofOption, nullable]
      · rw [hread]
        rfl
      · exact hnull

theorem Value.Plain.ofOption {α : Type} {write : α → Value} (o : Option α)
    (h : ∀ a ∈ o, (write a).Plain) : (Value.ofOption write o).Plain := by
  cases o with
  | none => exact .null
  | some a => exact h a rfl

end Json

/-! ## Fields -/

namespace Field

/-- The numbers of a field have 32 bits. -/
structure Sized (f : Field) : Prop where
  offset : f.offset < 2 ^ 32
  count : f.count < 2 ^ 32

theorem plain_toJson (f : Field) : f.toJson.Plain := by
  refine .ofMembers ?_
  simp only [List.forall_mem_cons]
  exact ⟨.text _, .text _, .int _, .int _, nofun⟩

theorem ofJson?_toJson {f : Field} (h : f.Sized) : ofJson? f.toJson = some f := by
  have hfields : f.toJson.fields? ["name", "ty", "offset", "count"] =
      some [some (.text f.name), some (.text f.typeName), some (.nat f.offset),
        some (.nat f.count)] :=
    Value.fields?_ofMembers [("name", .text f.name), ("ty", .text f.typeName),
      ("offset", .nat f.offset), ("count", .nat f.count)] (by simp)
  simp [ofJson?, hfields, required, withDefault, Value.text?, Value.unsigned?_nat h.offset,
    Value.unsigned?_nat h.count]

end Field

/-! ## Declarations -/

namespace Declaration

structure Sized (d : Declaration) : Prop where
  size : d.size < 2 ^ 32
  fields : ∀ f ∈ d.fields, f.Sized
  flexible : ∀ f ∈ d.flexible, f.Sized

theorem hashOfJson?_hashToJson (word : UInt64) : hashOfJson? (hashToJson word) = some word := by
  have hread : TypeHash.read (.text (TypeHash.mk word).toText) = .ok ⟨word⟩ :=
    TypeHash.ofText_toText word
  rw [hashOfJson?, hashToJson, TypeHash.toJson, TypeHash.ofJson?, hread]
  rfl

theorem plain_toJson (d : Declaration) : d.toJson.Plain := by
  refine .ofMembers ?_
  simp only [List.forall_mem_cons]
  refine ⟨.text _, .ofOption _ fun _ _ => .text _, .ofOption _ fun _ _ => .text _, .int _,
    .list fun v hv => ?_, .ofOption _ fun f _ => f.plain_toJson, .ofOption _ fun _ _ => .text _,
    .bool _, nofun⟩
  obtain ⟨f, _, rfl⟩ := List.mem_map.mp hv
  exact f.plain_toJson

theorem ofJson?_toJson {d : Declaration} (h : d.Sized) : ofJson? d.toJson = some d := by
  have hfields : d.toJson.fields?
      ["name", "hash", "hash2", "size", "fields", "flexible", "coerce_to", "union"] =
      some [some (.text d.name), some (.ofOption hashToJson d.hash),
        some (.ofOption hashToJson d.secondary), some (.nat d.size),
        some (.list (d.fields.map Field.toJson)), some (.ofOption Field.toJson d.flexible),
        some (.ofOption Value.text d.coerceTo), some (.bool d.isUnion)] :=
    Value.fields?_ofMembers [("name", .text d.name), ("hash", .ofOption hashToJson d.hash),
      ("hash2", .ofOption hashToJson d.secondary), ("size", .nat d.size),
      ("fields", .list (d.fields.map Field.toJson)),
      ("flexible", .ofOption Field.toJson d.flexible),
      ("coerce_to", .ofOption Value.text d.coerceTo), ("union", .bool d.isUnion)] (by simp)
  have hhash (o : Option UInt64) : nullable hashOfJson? (.ofOption hashToJson o) = some o :=
    nullable_ofOption fun word _ => ⟨nofun, hashOfJson?_hashToJson word⟩
  have hlist : listOf Field.ofJson? (.list (d.fields.map Field.toJson)) = some d.fields :=
    listOf_map fun f hf => Field.ofJson?_toJson (h.fields f hf)
  have hflexible : nullable Field.ofJson? (.ofOption Field.toJson d.flexible) = some d.flexible :=
    nullable_ofOption fun f hf => ⟨nofun, Field.ofJson?_toJson (h.flexible f hf)⟩
  have hcoerce : nullable Value.text? (.ofOption Value.text d.coerceTo) = some d.coerceTo :=
    nullable_ofOption fun name _ => ⟨nofun, rfl⟩
  simp [ofJson?, hfields, required, withDefault, Value.text?, Value.bool?, hhash, hlist, hflexible,
    hcoerce, Value.unsigned?_nat h.size]

theorem parse?_render {d : Declaration} (h : d.Sized) : parse? d.render = some d := by
  rw [parse?, render, d.plain_toJson.parse?_render, Option.bind_some, ofJson?_toJson h]

/-! ## Documents -/

def documentOf (texts : List String) : String :=
  "\x7b\"types\":[" ++ ",".intercalate texts ++ "]\x7d"

theorem renderDocument_eq (ds : List Declaration) :
    renderDocument ds = documentOf (ds.map render) := by
  have hrenders : (ds.map toJson).map Value.render = ds.map render := List.map_map
  have htypes (rest : List Char) : writeText "types" rest = "\"types\"".toList ++ rest := by
    simp [writeText, writeChar]
  have hwrite : (Value.ofMembers [("types", .list (ds.map toJson))]).write [] =
      '\x7b' :: "\"types\":".toList ++ (Value.list (ds.map toJson)).write ['\x7d'] := by
    simp [Value.ofMembers, Value.write, writeMembers, htypes]
  apply String.toList_inj.mp
  rw [renderDocument, Value.render, String.toList_ofList, hwrite, Value.write_list, hrenders,
    documentOf]
  simp

theorem parse?_documentOf (ds : List Declaration) : Value.parse? (documentOf (ds.map render)) =
    some (.ofMembers [("types", .list (ds.map toJson))]) := by
  rw [← renderDocument_eq]
  refine Value.Plain.parse?_render (.ofMembers ?_)
  simp only [List.forall_mem_cons]
  refine ⟨.list fun v hv => ?_, nofun⟩
  obtain ⟨d, _, rfl⟩ := List.mem_map.mp hv
  exact d.plain_toJson

theorem documentOfJson?_types {ds : List Declaration} (h : ∀ d ∈ ds, d.Sized) :
    documentOfJson? (.ofMembers [("types", .list (ds.map toJson))]) = some ds := by
  have hfields : (Value.ofMembers [("types", .list (ds.map toJson))]).fields? ["types"] =
      some [some (.list (ds.map toJson))] :=
    Value.fields?_ofMembers [("types", .list (ds.map toJson))] (by simp)
  have hlist : listOf ofJson? (.list (ds.map toJson)) = some ds :=
    listOf_map fun d hd => ofJson?_toJson (h d hd)
  simp [documentOfJson?, hfields, required, hlist]

end Declaration

namespace Catalog

/-! ## What a document declares -/

theorem declareAll_concat (ds : List Declaration) (d : Declaration) (c : Catalog) :
    c.declareAll (ds ++ [d]) = c.declareAll ds >>= fun c => c.declare d := by
  rw [declareAll, List.foldlM_append]
  simp [declareAll]

theorem declare_eq_error {c : Catalog} {d : Declaration} {e : RegistryError}
    (h : c.declare d = .error e) : e = .duplicateType d.name := by
  unfold declare at h
  split at h
  · exact (Except.error.inj h).symm
  · cases h

/-- The error when `ds` are declared in order: the name of the first one whose name is taken. -/
def FirstDuplicate (ds : List Declaration) (e : RegistryError) : Prop :=
  ∃ front d back, ds = front ++ d :: back ∧ Declarable front ∧ ¬Declarable (front ++ [d]) ∧
    e = .duplicateType d.name

variable {hasher : NameHasher}

theorem declare_eq_declareAll {front : List Declaration} {d : Declaration} (h : Declarable front) :
    (⟨hasher, front⟩ : Catalog).declare d = (empty hasher).declareAll (front ++ [d]) := by
  rw [declareAll_concat, declareAll_eq_ok_iff.mpr ⟨rfl, h⟩]
  rfl

/-- Declaring fails at the first declaration whose name is taken. -/
theorem declareAll_eq_error_iff {ds : List Declaration} {e : RegistryError} :
    (empty hasher).declareAll ds = .error e ↔ FirstDuplicate ds e := by
  constructor
  · intro h
    -- The last declaration is only tried if all before it are accepted.
    induction ds using List.reverseRecOn with
    | nil => cases h
    | append_singleton ds d ih =>
        rw [declareAll_concat] at h
        rcases error_of_bind h with hearlier | ⟨c, hc, hlast⟩
        · obtain ⟨front, x, back, rfl, hfront, htaken, he⟩ := ih hearlier
          exact ⟨front, x, back ++ [d], by simp, hfront, htaken, he⟩
        · obtain ⟨rfl, hds⟩ := declareAll_eq_ok_iff.mp hc
          refine ⟨ds, d, [], rfl, hds, fun hall => ?_, declare_eq_error hlast⟩
          rw [declare_eq_declareAll hds, declareAll_eq_ok_iff.mpr ⟨rfl, hall⟩] at hlast
          cases hlast
  · rintro ⟨front, d, back, rfl, hfront, htaken, rfl⟩
    have hstep : (empty hasher).declareAll (front ++ [d]) = .error (.duplicateType d.name) := by
      rw [← declare_eq_declareAll hfront]
      cases hd : (⟨hasher, front⟩ : Catalog).declare d with
      | error e => rw [declare_eq_error hd]
      | ok c =>
          rw [declare_eq_declareAll hfront] at hd
          exact absurd (declareAll_eq_ok_iff.mp hd).2 htaken
    rw [List.append_cons, declareAll, List.foldlM_append]
    rw [declareAll] at hstep
    rw [hstep]
    rfl

/-- Declarations survive being written: each is read back from its text, so that different ones
have different texts, and a text with the value of a document of theirs declares them in order. It
is refused only for the first name that is taken. -/
theorem declarations_survive :
    (∀ d : Declaration, d.Sized → Declaration.parse? d.render = some d) ∧
      (∀ d e : Declaration, d.Sized → e.Sized → d.render = e.render → d = e) ∧
      ∀ (hasher : NameHasher) (ds : List Declaration) (text : String), (∀ d ∈ ds, d.Sized) →
        Value.parse? text = Value.parse? (Declaration.documentOf (ds.map Declaration.render)) →
          parse hasher text = (empty hasher).declareAll ds ∧
            (∀ c, parse hasher text = .ok c ↔ c = ⟨hasher, ds⟩ ∧ Declarable ds) ∧
            (∀ e, parse hasher text = .error e ↔ FirstDuplicate ds e) := by
  refine ⟨fun d hd => Declaration.parse?_render hd, fun d e hd he heq => ?_,
    fun hasher ds text sized htext => ?_⟩
  · have hread := Declaration.parse?_render hd
    rw [heq, Declaration.parse?_render he] at hread
    exact (Option.some.inj hread).symm
  · have hparse : parse hasher text = (empty hasher).declareAll ds := by
      rw [parse, Declaration.parseDocument?, htext, Declaration.parse?_documentOf,
        Option.bind_some, Declaration.documentOfJson?_types sized]
    rw [hparse]
    exact ⟨rfl, fun c => declareAll_eq_ok_iff, fun e => declareAll_eq_error_iff⟩

def awkward : Declaration where
  name := "union \"ñ\\\x01\n☃\""
  hash := some 0xFFFFFFFFFFFFFFFE
  secondary := none
  size := 4294967295
  fields := [⟨"\t", "int8_t", 0, 4294967295⟩]
  flexible := some ⟨"", "int8_t", 4294967295, 0⟩
  coerceTo := some "int8_t *"
  isUnion := true

theorem awkward_survives : awkward.Sized ∧ Declaration.parse? awkward.render = some awkward ∧
    parse .spread (Declaration.documentOf ([awkward, awkward].map Declaration.render)) =
      .error (.duplicateType awkward.name) := by
  have hsized : awkward.Sized := by
    refine ⟨by decide, ?_, ?_⟩
    · rintro f (_ | ⟨_, ⟨⟩⟩)
      exact ⟨by decide, by decide⟩
    · rintro f ⟨⟩
      exact ⟨by decide, by decide⟩
  obtain ⟨hread, _, hdocument⟩ := declarations_survive
  refine ⟨hsized, hread awkward hsized, ?_⟩
  have htwice : ∀ d ∈ [awkward, awkward], d.Sized := by simpa using hsized
  refine ((hdocument .spread _ _ htwice rfl).2.2 _).mpr ⟨[awkward], awkward, [], rfl, ?_, ?_, rfl⟩
  · exact ⟨by simp, fun d hd => List.mem_singleton.mp hd ▸ rfl⟩
  · exact fun h => absurd h.names (by simp)

end Catalog

end TypedHeap
