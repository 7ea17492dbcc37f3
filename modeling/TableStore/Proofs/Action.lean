import TableStore.Action
import TableStore.Proofs.Except

/-!
Reasoning about actions. What is shown of an action has two sides, one for its value and one
for its error. An action may mirror another one on an image of its state; this is preserved
when actions are put together, and so are the outcomes of whole runs.
-/

namespace TableStore

variable {ε σ τ α β : Type}

/-- The value or the error with which an action ends. -/
def outcome : EStateM.Result ε σ α → Except ε α
  | .ok a _ => .ok a
  | .error e _ => .error e

/-- Started in `s`, the action ends with `post` or fails with `fail`. -/
def Ensures (act : EStateM ε σ α) (s : σ) (post : α → σ → Prop) (fail : ε → σ → Prop) : Prop :=
  match act s with
  | .ok a s => post a s
  | .error e s => fail e s

section
variable {act : EStateM ε σ α} {s s' : σ} {post post' : α → σ → Prop} {fail fail' : ε → σ → Prop}

theorem bind_apply (act : EStateM ε σ α) (f : α → EStateM ε σ β) (s : σ) :
    (act >>= f) s =
      match act s with
      | .ok a s => f a s
      | .error e s => .error e s := by
  change EStateM.bind act f s = _
  rw [EStateM.bind]
  cases act s <;> rfl

theorem pure_apply (a : α) (s : σ) : (pure a : EStateM ε σ α) s = .ok a s := rfl

theorem Ensures.ok (h : Ensures act s post fail) {a : α} (ha : act s = .ok a s') : post a s' := by
  simpa only [Ensures, ha] using h

theorem Ensures.error (h : Ensures act s post fail) {e : ε} (he : act s = .error e s') :
    fail e s' := by
  simpa only [Ensures, he] using h

theorem outcome_of_ok {a : α} (h : act s = .ok a s') : outcome (act s) = .ok a := by
  rw [h]
  rfl

theorem ok_of_outcome {a : α} (h : outcome (act s) = .ok a) :
    act s = .ok a (finalState (act s)) := by
  cases ha : act s with
  | ok a' s' => rw [ha] at h; cases h; rfl
  | error e s' => rw [ha] at h; cases h

theorem error_of_outcome {e : ε} (h : outcome (act s) = .error e) :
    act s = .error e (finalState (act s)) := by
  cases ha : act s with
  | ok a s' => rw [ha] at h; cases h
  | error e' s' => rw [ha] at h; cases h; rfl

theorem bind_of_ok {f : α → EStateM ε σ β} {a : α} (h : outcome (act s) = .ok a) :
    (act >>= f) s = f a (finalState (act s)) := by
  rw [bind_apply, ok_of_outcome h]
  rfl

theorem bind_of_error {f : α → EStateM ε σ β} {e : ε} (h : outcome (act s) = .error e) :
    (act >>= f) s = .error e (finalState (act s)) := by
  rw [bind_apply, error_of_outcome h]
  rfl

/-- The outcome of an action that starts with one which leaves the state as it is. -/
theorem outcome_bind {f : α → EStateM ε σ β} (h : finalState (act s) = s) :
    outcome ((act >>= f) s) = outcome (act s) >>= fun a => outcome (f a s) := by
  rw [bind_apply]
  cases ha : act s with
  | ok a s' =>
      rw [ha] at h
      cases (h : s' = s)
      rfl
  | error e s' => rfl

theorem outcome_bind_pure (f : α → β) :
    outcome ((act >>= fun a => pure (f a)) s) = (outcome (act s)).map f := by
  rw [bind_apply]
  cases act s <;> rfl

theorem finalState_bind_pure (f : α → β) :
    finalState ((act >>= fun a => pure (f a)) s) = finalState (act s) := by
  rw [bind_apply]
  cases act s <;> rfl

theorem outcome_ofExcept_bind (x : Except ε α) (f : α → EStateM ε σ β) :
    outcome ((ofExcept x >>= f) s) = x >>= fun a => outcome (f a s) := by
  rw [bind_apply]
  cases x <;> rfl

theorem Ensures.eq_ok {a : α} (h : Ensures act s (fun b t => b = a ∧ t = s') fun _ _ => False) :
    act s = .ok a s' := by
  rw [Ensures] at h
  cases ha : act s with
  | ok b t =>
      rw [ha] at h
      rw [h.1, h.2]
  | error e t =>
      rw [ha] at h
      exact h.elim

theorem ensures_of_cases (ok : ∀ a s', act s = .ok a s' → post a s')
    (error : ∀ e s', act s = .error e s' → fail e s') : Ensures act s post fail := by
  rw [Ensures]
  cases h : act s with
  | ok a s' => exact ok a s' h
  | error e s' => exact error e s' h

theorem ensures_final {P : σ → Prop} (h : P (finalState (act s))) :
    Ensures act s (fun _ s' => P s') fun _ s' => P s' := by
  refine ensures_of_cases ?_ ?_
  · intro a s' ha
    rwa [ha] at h
  · intro e s' he
    rwa [he] at h

theorem ensures_of_finalState (h : finalState (act s) = s) :
    Ensures act s (fun _ s' => s' = s) fun _ s' => s' = s :=
  ensures_final (P := (· = s)) h

theorem Ensures.mono (h : Ensures act s post fail) (hp : ∀ a s', post a s' → post' a s')
    (hf : ∀ e s', fail e s' → fail' e s') : Ensures act s post' fail' :=
  ensures_of_cases (fun a s' ha => hp a s' (h.ok ha)) fun e s' he => hf e s' (h.error he)

/-- What follows from an action that cannot fail. -/
theorem Ensures.succeed (h : Ensures act s post fun _ _ => False)
    (hp : ∀ a s', post a s' → post' a s') : Ensures act s post' fail :=
  h.mono hp fun _ _ => False.elim

theorem Ensures.final {P : σ → Prop} (h : Ensures act s (fun _ s' => P s') fun _ s' => P s') :
    P (finalState (act s)) := by
  rw [Ensures] at h
  cases ha : act s with
  | ok a s' => simpa only [ha, finalState] using h
  | error e s' => simpa only [ha, finalState] using h

/-- What is shown of both sides holds of the outcome and the final state. -/
theorem Ensures.ends {P : Except ε α → σ → Prop}
    (h : Ensures act s (fun a s' => P (.ok a) s') fun e s' => P (.error e) s') :
    P (outcome (act s)) (finalState (act s)) := by
  rw [Ensures] at h
  cases ha : act s with
  | ok a s' => simpa only [ha, outcome, finalState] using h
  | error e s' => simpa only [ha, outcome, finalState] using h

theorem ensures_ofExcept {x : Except ε α} (ok : ∀ a, x = .ok a → post a s)
    (error : ∀ e, x = .error e → fail e s) : Ensures (ofExcept x) s post fail := by
  cases x with
  | ok a => exact ok a rfl
  | error e => exact error e rfl

theorem ensures_bind {f : α → EStateM ε σ β} {post : β → σ → Prop}
    (h : Ensures act s (fun a s' => Ensures (f a) s' post fail) fail) :
    Ensures (act >>= f) s post fail := by
  rw [Ensures] at h ⊢
  rw [bind_apply]
  cases ha : act s with
  | ok a s' => simpa only [ha, Ensures] using h
  | error e s' => simpa only [ha] using h

theorem ensures_onPart {part : τ → σ} {replace : τ → σ → τ} {t : τ} {post : α → τ → Prop}
    {fail : ε → τ → Prop}
    (h : Ensures act (part t) (fun a s => post a (replace t s)) fun e s => fail e (replace t s)) :
    Ensures (onPart part replace act) t post fail := by
  rw [Ensures, onPart] at *
  cases ha : act (part t) with
  | ok a s' => simpa only [ha] using h
  | error e s' => simpa only [ha] using h

end

/-- From every state that meets `inv` the action does what the other one does from the image of
the state, and it leaves a state that meets `inv`. -/
def Mirrors (inv : σ → Prop) (image : σ → τ) (act : EStateM ε σ α) (act' : EStateM ε τ α) : Prop :=
  ∀ s, inv s → Ensures act s (fun a s' => act' (image s) = .ok a (image s') ∧ inv s')
    fun e s' => act' (image s) = .error e (image s') ∧ inv s'

section
variable {inv : σ → Prop} {image : σ → τ} {act : EStateM ε σ α} {act' : EStateM ε τ α}

theorem mirrors_pure (a : α) : Mirrors inv image (pure a : EStateM ε σ α) (pure a) :=
  fun _ hs => ⟨rfl, hs⟩

theorem mirrors_ofExcept (x : Except ε α) :
    Mirrors inv image (ofExcept x : EStateM ε σ α) (ofExcept x) := by
  intro s hs
  cases x with
  | ok a => exact ⟨rfl, hs⟩
  | error e => exact ⟨rfl, hs⟩

theorem Mirrors.bind {f : α → EStateM ε σ β} {f' : α → EStateM ε τ β}
    (h : Mirrors inv image act act') (hf : ∀ a, Mirrors inv image (f a) (f' a)) :
    Mirrors inv image (act >>= f) (act' >>= f') := by
  intro s hs
  refine ensures_bind ((h s hs).mono ?_ ?_)
  · intro a s' hpost
    obtain ⟨ha, hs'⟩ := hpost
    simpa only [bind_apply, ha] using hf a s' hs'
  · intro e s' hpost
    obtain ⟨he, hs'⟩ := hpost
    exact ⟨by rw [bind_apply, he], hs'⟩

theorem mirrors_onPart {μ ν : Type} {inv' : μ → Prop} {image' : μ → ν} {part : μ → σ}
    {replace : μ → σ → μ} {part' : ν → τ} {replace' : ν → τ → ν} (h : Mirrors inv image act act')
    (hpart : ∀ m, part' (image' m) = image (part m))
    (hreplace : ∀ m s, image' (replace m s) = replace' (image' m) (image s))
    (hinv : ∀ m, inv' m → inv (part m)) (hinv' : ∀ m s, inv' m → inv s → inv' (replace m s)) :
    Mirrors inv' image' (onPart part replace act) (onPart part' replace' act') := by
  intro m hm
  refine ensures_onPart ((h (part m) (hinv m hm)).mono ?_ ?_)
  · intro a s hpost
    obtain ⟨ha, hs⟩ := hpost
    exact ⟨by simp only [onPart, hpart, ha, hreplace], hinv' m s hm hs⟩
  · intro e s hpost
    obtain ⟨he, hs⟩ := hpost
    exact ⟨by simp only [onPart, hpart, he, hreplace], hinv' m s hm hs⟩

theorem Mirrors.outcome_eq (h : Mirrors inv image act act') {s : σ} (hs : inv s) :
    outcome (act s) = outcome (act' (image s)) ∧
      image (finalState (act s)) = finalState (act' (image s)) ∧ inv (finalState (act s)) := by
  have h := h s hs
  rw [Ensures] at h
  cases ha : act s with
  | ok a s' =>
      rw [ha] at h
      simp only [h.1, outcome, finalState, h.2, and_self]
  | error e s' =>
      rw [ha] at h
      simp only [h.1, outcome, finalState, h.2, and_self]

end

/-- Runs actions one after the other, whatever becomes of each, and gathers the outcomes. -/
def runAll : List (EStateM ε σ α) → σ → List (Except ε α) × σ
  | [], s => ([], s)
  | act :: rest, s =>
    let later := runAll rest (finalState (act s))
    (outcome (act s) :: later.1, later.2)

theorem runAll_append (first rest : List (EStateM ε σ α)) (s : σ) :
    runAll (first ++ rest) s =
      ((runAll first s).1 ++ (runAll rest (runAll first s).2).1,
        (runAll rest (runAll first s).2).2) := by
  induction first generalizing s with
  | nil => rfl
  | cons act first ih => simp only [List.cons_append, runAll, ih]

/-- What every action preserves holds at the end of a run. -/
theorem runAll_preserves {inv : σ → Prop} {acts : List (EStateM ε σ α)}
    (h : ∀ act ∈ acts, ∀ s, inv s → inv (finalState (act s))) {s : σ} (hs : inv s) :
    inv (runAll acts s).2 := by
  induction acts generalizing s with
  | nil => exact hs
  | cons act rest ih =>
      exact ih (fun a ha => h a (List.mem_cons_of_mem _ ha)) (h act List.mem_cons_self s hs)

/-- Actions that mirror others have the same outcomes in every run. -/
theorem runAll_mirrors {ι : Type} {inv : σ → Prop} {image : σ → τ} {f : ι → EStateM ε σ α}
    {g : ι → EStateM ε τ α} (h : ∀ i, Mirrors inv image (f i) (g i)) (is : List ι) {s : σ}
    (hs : inv s) :
    (runAll (is.map f) s).1 = (runAll (is.map g) (image s)).1 ∧
      image (runAll (is.map f) s).2 = (runAll (is.map g) (image s)).2 ∧
      inv (runAll (is.map f) s).2 := by
  induction is generalizing s with
  | nil => exact ⟨rfl, rfl, hs⟩
  | cons i is ih =>
      obtain ⟨hout, hstate, hinv⟩ := (h i).outcome_eq hs
      have hrest := ih hinv
      rw [hstate] at hrest
      simp only [List.map_cons, runAll, hout, hrest.1, hrest.2, and_self]

end TableStore
