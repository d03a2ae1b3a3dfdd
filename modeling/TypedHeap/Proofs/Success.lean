/-! # Successful computations

What is known of the parts of a computation that may fail once the whole of it succeeds, or fails.
-/

namespace TypedHeap

variable {ε α β γ : Type}

theorem ok_of_bind {x : Except ε α} {f : α → Except ε β} {b : β}
    (h : (x >>= f) = .ok b) : ∃ a, x = .ok a ∧ f a = .ok b := by
  cases x with
  | error e => cases h
  | ok a => exact ⟨a, rfl, h⟩

theorem error_of_bind {x : Except ε α} {f : α → Except ε β} {e : ε}
    (h : (x >>= f) = .error e) : x = .error e ∨ ∃ a, x = .ok a ∧ f a = .error e := by
  cases x with
  | error e' => exact .inl (congrArg _ (Except.error.inj h))
  | ok a => exact .inr ⟨a, rfl, h⟩

theorem bind_of_ok {x : Except ε α} {a : α} (h : x = .ok a) (f : α → Except ε β) :
    (x >>= f) = f a := by
  rw [h]
  rfl

theorem bind_of_error {x : Except ε α} {e : ε} (h : x = .error e) (f : α → Except ε β) :
    (x >>= f) = .error e := by
  rw [h]
  rfl

theorem mapError_of_ok {x : Except ε α} {a : α} (h : x = .ok a) (f : ε → β) :
    x.mapError f = .ok a := by
  rw [h]
  rfl

theorem mapError_of_error {x : Except ε α} {e : ε} (h : x = .error e) (f : ε → β) :
    x.mapError f = .error (f e) := by
  rw [h]
  rfl

theorem ok_get {x : Except ε α} (h : x.toOption.isSome = true) :
    x = .ok (x.toOption.get h) := by
  cases x with
  | error e => cases h
  | ok a => rfl

theorem foldlM_preserves {P : β → Prop} {f : β → α → Except ε β}
    (hstep : ∀ b a b', P b → f b a = .ok b' → P b') {l : List α} {b b' : β} (hb : P b)
    (h : l.foldlM f b = .ok b') : P b' := by
  induction l generalizing b with
  | nil => exact Except.ok.inj h ▸ hb
  | cons a l ih =>
      rw [List.foldlM_cons] at h
      obtain ⟨next, hnext, h⟩ := ok_of_bind h
      exact ih (hstep b a next hb hnext) h

theorem step_of_foldlM {f : β → α → Except ε β} {l : List α} {b b' : β}
    (h : l.foldlM f b = .ok b') {a : α} (ha : a ∈ l) : ∃ x x', f x a = .ok x' := by
  induction l generalizing b with
  | nil => cases ha
  | cons first l ih =>
      rw [List.foldlM_cons] at h
      obtain ⟨next, hnext, h⟩ := ok_of_bind h
      cases ha with
      | head => exact ⟨b, next, hnext⟩
      | tail _ ha => exact ih h ha

theorem step_of_foldlM_error {f : β → α → Except ε β} {l : List α} {b : β} {e : ε}
    (h : l.foldlM f b = .error e) : ∃ a ∈ l, ∃ x, f x a = .error e := by
  induction l generalizing b with
  | nil => cases h
  | cons a l ih =>
      rw [List.foldlM_cons] at h
      rcases error_of_bind h with hfirst | ⟨next, _, hrest⟩
      · exact ⟨a, List.mem_cons_self, b, hfirst⟩
      · obtain ⟨other, hother, hstep⟩ := ih hrest
        exact ⟨other, List.mem_cons_of_mem a hother, hstep⟩

theorem foldlM_congr {f g : β → α → Except ε β} {l : List α} (h : ∀ a ∈ l, ∀ b, f b a = g b a)
    (b : β) : l.foldlM f b = l.foldlM g b := by
  induction l generalizing b with
  | nil => rfl
  | cons a l ih =>
      obtain ⟨hfirst, hrest⟩ := List.forall_mem_cons.mp h
      simp only [List.foldlM_cons, hfirst, ih hrest]

theorem map_eq_of_mapM {f : α → Except ε β} {l : List α} {l' : List β}
    (h : l.mapM f = .ok l') : l.map f = l'.map .ok := by
  induction l generalizing l' with
  | nil =>
      obtain rfl := Except.ok.inj h
      rfl
  | cons a l ih =>
      rw [List.mapM_cons] at h
      obtain ⟨b, hb, h⟩ := ok_of_bind h
      obtain ⟨rest, hrest, h⟩ := ok_of_bind h
      obtain rfl := Except.ok.inj h
      rw [List.map_cons, List.map_cons, hb, ih hrest]

theorem error_of_mapM {f : α → Except ε β} {l : List α} {e : ε} (h : l.mapM f = .error e) :
    ∃ a ∈ l, f a = .error e := by
  induction l with
  | nil => cases h
  | cons a l ih =>
      rw [List.mapM_cons] at h
      rcases error_of_bind h with hfirst | ⟨b, _, hrest⟩
      · exact ⟨a, List.mem_cons_self, hfirst⟩
      · rcases error_of_bind hrest with hrest | ⟨_, _, hlast⟩
        · obtain ⟨other, hother, hfails⟩ := ih hrest
          exact ⟨other, List.mem_cons_of_mem a hother, hfails⟩
        · cases hlast

theorem mem_of_mapM {f : α → Option β} {l : List α} {l' : List β}
    (h : l.mapM f = some l') {b : β} (hb : b ∈ l') : ∃ a ∈ l, f a = some b := by
  induction l generalizing l' with
  | nil =>
      obtain rfl := Option.some.inj h
      cases hb
  | cons a l ih =>
      rw [List.mapM_cons] at h
      obtain ⟨first, hfirst, h⟩ := Option.bind_eq_some_iff.mp h
      obtain ⟨rest, hrest, h⟩ := Option.bind_eq_some_iff.mp h
      obtain rfl := Option.some.inj h
      cases hb with
      | head => exact ⟨a, List.mem_cons_self, hfirst⟩
      | tail _ hb =>
          obtain ⟨other, hother, hf⟩ := ih hrest hb
          exact ⟨other, List.mem_cons_of_mem a hother, hf⟩

theorem mapM_of_map_eq {f : α → Except ε β} {l : List α} {l' : List β}
    (h : l.map f = l'.map .ok) : l.mapM f = .ok l' := by
  induction l generalizing l' with
  | nil =>
      obtain rfl := List.map_eq_nil_iff.mp h.symm
      rfl
  | cons a l ih =>
      obtain ⟨b, rest, rfl, hb, hrest⟩ := List.map_eq_cons_iff.mp h.symm
      rw [List.mapM_cons, ← hb, ih hrest.symm]
      rfl

/-- The results of computations that all succeed come in the order of what they start from. -/
theorem results_perm {f : α → Except ε β} {l l' : List α} {results : List β} (perm : l'.Perm l)
    (h : l.map f = results.map .ok) :
    ∃ results' : List β, l'.map f = results'.map .ok ∧ results'.Perm results := by
  induction perm generalizing results with
  | nil => exact ⟨results, h, .refl _⟩
  | cons a _ ih =>
      obtain ⟨b, rest, rfl, hb, hrest⟩ := List.map_eq_cons_iff.mp h.symm
      obtain ⟨rest', hrest', hperm⟩ := ih hrest.symm
      exact ⟨b :: rest', by rw [List.map_cons, List.map_cons, hb, hrest'], hperm.cons b⟩
  | swap a b l =>
      obtain ⟨x, rest, rfl, hx, hrest⟩ := List.map_eq_cons_iff.mp h.symm
      obtain ⟨y, rest, rfl, hy, hrest⟩ := List.map_eq_cons_iff.mp hrest
      refine ⟨y :: x :: rest, ?_, .swap x y rest⟩
      simp only [List.map_cons, hx, hy, hrest]
  | trans _ _ ih ih' =>
      obtain ⟨between, hbetween, hperm⟩ := ih' h
      obtain ⟨results', hresults, hperm'⟩ := ih hbetween
      exact ⟨results', hresults, hperm'.trans hperm⟩

theorem map_eq_of_results {f : α → Except ε β} {g : α → γ} {g' : β → γ}
    (hf : ∀ a b, f a = .ok b → g' b = g a) {l : List α} {l' : List β}
    (h : l.map f = l'.map .ok) : l'.map g' = l.map g := by
  induction l generalizing l' with
  | nil =>
      obtain rfl := List.map_eq_nil_iff.mp h.symm
      rfl
  | cons a l ih =>
      obtain ⟨b, rest, rfl, hb, hrest⟩ := List.map_eq_cons_iff.mp h.symm
      rw [List.map_cons, List.map_cons, hf a b hb.symm, ih hrest.symm]

end TypedHeap
