import TypedHeap.Proofs.Congruence
import TypedHeap.Proofs.Runs

/-! # Requests

What a program asks of a guard: its operations, the calls of compiled code, what lies at an address,
and raw access past it. Guards that are related answer alike.
-/

namespace TypedHeap

/-- What a program gets to know. -/
inductive Answer where
  | done
  | placed (result : Except AllocError Bounds)
  | address (a : Nat)
  | allowed (b : Checked Bounds)
  | pointer (p : Pointer)
  | text (s : String)
  | bytes (runs : List Run)

/-- What a program does: it calls the guard, asks it, or reads and writes bytes past it. -/
inductive Request where
  | event (e : Event)
  | malloc (size : Nat) (type : TypeHash) (grant : Grant)
  | calloc (count size : Nat) (type : TypeHash) (grant : Grant)
  | realloc (address size : Nat) (grant : Grant)
  | new (size : Nat) (type : TypeHash) (grant : Grant)
  | checkCall (p : Pointer) (expected : TypeHash)
  | capture (address : Nat)
  | boundsAt (address : Nat)
  | describe (at_ : Nat → String) (address : Nat)
  | read (start length : Nat)
  | write (start : Nat) (values : List UInt8)

namespace Guard

def checkBy (judge : Guard → Pointer → TypeHash → Verdict) (g : Guard) (p : Pointer)
    (expected : TypeHash) : Checked Bounds × Guard :=
  let g := (g.bump .typeChecks).trace (.checked p.address (g.registry.nameOf expected))
  let v := judge g p expected
  (v.bounds, g.settle v)

/-- The answer to a request, if pointers are checked by `judge`, and the guard behind it. -/
def reply (judge : Guard → Pointer → TypeHash → Verdict) (g : Guard) : Request → Answer × Guard
  | .event (.allocate size type grant) => (g.allocate size type grant).map Answer.placed id
  | .event (.allocateZeroed count size type grant) =>
      (g.allocateZeroed count size type grant).map Answer.placed id
  | .event (.reallocate address size grant) =>
      (g.reallocate address size grant).map Answer.placed id
  | .event (.free address) => (.done, g.free address)
  | .event (.check p expected) => (g.checkBy judge p expected).map Answer.allowed id
  | .event (.checkBounds allowed address lb ub) => (.done, g.checkBounds allowed address lb ub)
  | .event (.fill target value length) => (.done, g.fill target value length)
  | .event (.copy target source length) => (.done, g.copy target source length)
  | .malloc size type grant => (Interface.malloc g size type grant).map Answer.address id
  | .calloc count size type grant => (Interface.calloc g count size type grant).map Answer.address id
  | .realloc address size grant => (Interface.realloc g address size grant).map Answer.address id
  | .new size type grant => (Interface.new g size type grant).map Answer.address id
  | .checkCall p expected =>
      (Interface.answerCheck (g.checkBy judge p expected)).map Answer.allowed id
  | .capture address => (.pointer (g.capture address), g)
  | .boundsAt address => (.allowed (.ok (g.boundsAt address)), g)
  | .describe at_ address => (.text (g.describe at_ address), g)
  | .read start length => (.bytes (g.runs start length), g)
  | .write start values => (.done, g.writeBytes start values)

theorem reply_event (g : Guard) (e : Event) : (g.reply judge (.event e)).2 = g.perform e := by
  cases e <;> rfl

def replies (judge : Guard → Pointer → TypeHash → Verdict) : Guard → List Request →
    List (Answer × Guard)
  | _, [] => []
  | g, r :: rs => g.reply judge r :: (g.reply judge r).2.replies judge rs

theorem Replies.upToEnd {α : Type} {R : Guard → Guard → Prop} {r r' : α × Guard}
    (hr : Replies R r r') : Replies (UpToEnd R) r r' := hr.mono .of_related

/-- A relation that all operations keep is kept by every request, up to what is left out after the
end. Pointers may be checked by other verdicts in the second guard. -/
theorem Congruence.reply {R : Guard → Guard → Prop} (hR : Congruence R)
    {judge judge' : Guard → Pointer → TypeHash → Verdict}
    (check : ∀ {g g' : Guard}, R g g' → ∀ (p : Pointer) (expected : TypeHash),
      Replies R (g.checkBy judge p expected) (g'.checkBy judge' p expected))
    {g g' : Guard} (h : R g g') (r : Request) :
    Replies (UpToEnd R) (g.reply judge r) (g'.reply judge' r) := by
  cases r with
  | event e =>
      cases e with
      | allocate size type grant => exact ((hR.allocate h size type grant).map Answer.placed).upToEnd
      | allocateZeroed count size type grant =>
          exact ((hR.allocateZeroed h count size type grant).map Answer.placed).upToEnd
      | reallocate address size grant =>
          exact ((hR.reallocate h address size grant).map Answer.placed).upToEnd
      | free address => exact .intro (.of_related (hR.free h address))
      | check p expected => exact ((check h p expected).map Answer.allowed).upToEnd
      | checkBounds allowed address lb ub =>
          exact .intro (.of_related (hR.checkBounds h allowed address lb ub))
      | fill target value length => exact .intro (hR.fill h target value length)
      | copy target source length => exact .intro (hR.copy h target source length)
  | malloc size type grant =>
      exact ((hR.handOut (hR.allocate h size type grant)).map Answer.address).upToEnd
  | calloc count size type grant =>
      exact ((hR.handOut (hR.allocateZeroed h count size type grant)).map Answer.address).upToEnd
  | realloc address size grant =>
      exact ((hR.handOut (hR.reallocate h address size grant)).map Answer.address).upToEnd
  | new size type grant => exact ((hR.new h size type grant).map Answer.address).upToEnd
  | checkCall p expected =>
      exact ((hR.answerCheck (check h p expected)).map Answer.allowed).upToEnd
  | capture address =>
      simp only [Guard.reply, hR.capture_eq h]
      exact .intro (.of_related h)
  | boundsAt address =>
      simp only [Guard.reply, hR.boundsAt_eq h]
      exact .intro (.of_related h)
  | describe at_ address =>
      simp only [Guard.reply, describe, hR.placeOf_eq h]
      exact .intro (.of_related h)
  | read start length =>
      simp only [Guard.reply, hR.runs_eq h]
      exact .intro (.of_related h)
  | write start values => exact .intro (.of_related (hR.writeBytes h start values))

theorem Congruence.reply_judge {R : Guard → Guard → Prop} (hR : Congruence R)
    (state : ∀ {g g' : Guard}, R g g' → g.SameState g') {g g' : Guard} (h : R g g') (r : Request) :
    Replies (UpToEnd R) (g.reply judge r) (g'.reply judge r) :=
  hR.reply (fun hb p expected =>
    hR.checkPointer (fun hs => congrArg Heap.chains (state hs).heap_eq) hb p expected) h r

/-- What is true of an account whatever the state, and stays true with every note, stays true with
every request. -/
theorem reply_preserves {P : Guard → Prop} (account : ∀ {g : Guard}, P g → ∀ s, P (g.holding s))
    (note : ∀ {g : Guard}, P g → ∀ n, P (g.note n)) {g : Guard} (h : P g) (r : Request) :
    P (g.reply judge r).2 := by
  have hR : Congruence fun g g' => g' = g ∧ P g :=
    congruence_of_sameState (fun h => h.1 ▸ ⟨rfl, rfl, rfl, rfl⟩)
      (fun h s => ⟨h.1 ▸ rfl, account h.2 s⟩) fun h n => ⟨h.1 ▸ rfl, note h.2 n⟩
  have hreply := hR.reply_judge (fun h => h.1 ▸ ⟨rfl, rfl, rfl, rfl⟩) ⟨rfl, h⟩ r
  generalize g.reply judge r = replied at hreply ⊢
  cases hreply with
  | intro hrelated => exact (hrelated.related fun h => congrArg Guard.halted h.1).2

end Guard

end TypedHeap
