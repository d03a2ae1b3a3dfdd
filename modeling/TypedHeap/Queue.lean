/-! # First-in first-out queues -/

namespace TypedHeap

/-- The elements of `front` in order, then those of `back` in reverse. -/
structure Queue (α : Type) where
  front : List α
  back : List α

namespace Queue

variable {α : Type}

def empty : Queue α := ⟨[], []⟩

def toList (q : Queue α) : List α := q.front ++ q.back.reverse

def length (q : Queue α) : Nat := q.front.length + q.back.length

def push (q : Queue α) (a : α) : Queue α := { q with back := a :: q.back }

def pop? (q : Queue α) : Option (α × Queue α) :=
  match q.front with
  | a :: front => some (a, { q with front })
  | [] =>
      match q.back.reverse with
      | a :: front => some (a, ⟨front, []⟩)
      | [] => none

@[simp] theorem toList_push (q : Queue α) (a : α) : (q.push a).toList = q.toList ++ [a] := by
  simp [toList, push]

theorem pop?_eq_none_iff (q : Queue α) : q.pop? = none ↔ q.toList = [] := by
  obtain ⟨front, back⟩ := q
  cases front with
  | cons a front => simp [pop?, toList]
  | nil => cases h : back.reverse <;> simp [pop?, toList, h]

theorem toList_of_pop? {q r : Queue α} {a : α} (h : q.pop? = some (a, r)) :
    q.toList = a :: r.toList := by
  obtain ⟨front, back⟩ := q
  cases front with
  | cons b front =>
      simp only [pop?, Option.some.injEq, Prod.mk.injEq] at h
      obtain ⟨rfl, rfl⟩ := h
      rfl
  | nil =>
      cases hb : back.reverse with
      | nil => simp [pop?, hb] at h
      | cons b front =>
          simp only [pop?, hb, Option.some.injEq, Prod.mk.injEq] at h
          obtain ⟨rfl, rfl⟩ := h
          simp [toList, hb]

end Queue

end TypedHeap
