/-!
When computations that may fail end with a value, and when with an error.
-/

namespace TableStore

variable {ε σ α β : Type}

theorem exceptBind_eq_ok {x : Except ε α} {f : α → Except ε β} {b : β} :
    x >>= f = .ok b ↔ ∃ a, x = .ok a ∧ f a = .ok b := by
  cases x <;> simp [bind, Except.bind]

theorem exceptBind_eq_error {x : Except ε α} {f : α → Except ε β} {e : ε} :
    x >>= f = .error e ↔ x = .error e ∨ ∃ a, x = .ok a ∧ f a = .error e := by
  cases x <;> simp [bind, Except.bind]

/-! A check that passes has nothing to hand on. -/

theorem exceptThen_eq_ok {x : Except ε Unit} {y : Except ε β} {b : β} :
    (x >>= fun _ => y) = .ok b ↔ x = .ok () ∧ y = .ok b := by
  cases x <;> simp [bind, Except.bind]

theorem exceptThen_eq_error {x : Except ε Unit} {y : Except ε β} {e : ε} :
    (x >>= fun _ => y) = .error e ↔ x = .error e ∨ x = .ok () ∧ y = .error e := by
  cases x <;> simp [bind, Except.bind]

theorem exceptMap_eq_ok {x : Except ε α} {f : α → β} {b : β} :
    x.map f = .ok b ↔ ∃ a, x = .ok a ∧ f a = b := by
  cases x <;> simp [Except.map]

theorem exceptMap_eq_error {x : Except ε α} {f : α → β} {e : ε} :
    x.map f = .error e ↔ x = .error e := by
  cases x <;> simp [Except.map]

theorem forM_cons_except (f : α → Except ε Unit) (a : α) (l : List α) :
    (a :: l).forM f = f a >>= fun _ => l.forM f := rfl

theorem forM_eq_ok {f : α → Except ε Unit} {l : List α} :
    l.forM f = .ok () ↔ ∀ a ∈ l, f a = .ok () := by
  induction l with
  | nil => simp [List.forM, pure, Except.pure]
  | cons a l ih =>
      rw [forM_cons_except, exceptBind_eq_ok, List.forall_mem_cons, ← ih]
      exact ⟨fun ⟨_, ha, hl⟩ => ⟨ha, hl⟩, fun ⟨ha, hl⟩ => ⟨(), ha, hl⟩⟩

/-- A check of a list fails with the error of the first item that has one. -/
theorem forM_eq_error {f : α → Except ε Unit} {l : List α} {e : ε} :
    l.forM f = .error e ↔
      ∃ front a rest, l = front ++ a :: rest ∧ (∀ b ∈ front, f b = .ok ()) ∧ f a = .error e := by
  induction l with
  | nil => simp [List.forM, pure, Except.pure]
  | cons b l ih =>
      rw [forM_cons_except, exceptBind_eq_error, ih]
      constructor
      · rintro (hb | ⟨_, hb, front, a, rest, rfl, hfront, ha⟩)
        · exact ⟨[], b, l, rfl, nofun, hb⟩
        · exact ⟨b :: front, a, rest, rfl, List.forall_mem_cons.mpr ⟨hb, hfront⟩, ha⟩
      · rintro ⟨front, a, rest, hl, hfront, ha⟩
        cases front with
        | nil =>
            cases hl
            exact .inl ha
        | cons c front =>
            cases hl
            obtain ⟨hc, hfront⟩ := List.forall_mem_cons.mp hfront
            exact .inr ⟨(), hc, front, a, rest, rfl, hfront, ha⟩

/-! An action may start with a computation that may fail. -/

theorem ofExcept_bind (x : Except ε α) (f : α → Except ε β) :
    (ofExcept (x >>= f) : EStateM ε σ β) = ofExcept x >>= fun a => ofExcept (f a) := by
  cases x <;> rfl

theorem ofExcept_ok (a : α) : (ofExcept (.ok a) : EStateM ε σ α) = pure a := rfl

theorem ofExcept_pure (a : α) : (ofExcept (pure a) : EStateM ε σ α) = pure a := rfl

theorem ofExcept_ok_apply (a : α) (s : σ) : (ofExcept (.ok a) : EStateM ε σ α) s = .ok a s := rfl

end TableStore
