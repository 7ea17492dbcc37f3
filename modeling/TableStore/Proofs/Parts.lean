import TableStore.Proofs.Coherence
import TableStore.Proofs.Simulation

/-!
The parts of a storage: the registry, and one for every table. An action is local to a part if it
depends on this part alone and changes no other one. The calls of a storage that keeps its parts
apart are local, and so are the plans of commands.
-/

namespace TableStore

inductive Part where
  | registry
  | table (name : String)

variable {δ α β : Type} {sound : δ → Prop} {same : Part → δ → δ → Prop} {part : Part}

/-! ## Actions on one part -/

/-- From states that are the same in a part the action has the same outcome, and it leaves states
that are the same in it. All other parts it leaves as they were. -/
structure LocalTo (sound : δ → Prop) (same : Part → δ → δ → Prop) (part : Part)
    (act : EStateM Error δ α) : Prop where
  keeps : ∀ s, sound s → sound (finalState (act s))
  congr : ∀ s s', sound s → sound s' → same part s s' → outcome (act s) = outcome (act s') ∧
    same part (finalState (act s)) (finalState (act s'))
  spares : ∀ s other, sound s → other ≠ part → same other s (finalState (act s))

section
variable {act : EStateM Error δ α} {f : α → EStateM Error δ β} {s s' : δ}

variable (equivalence : ∀ part, Equivalence (same part))
include equivalence

theorem localTo_pure (a : α) : LocalTo sound same part (pure a : EStateM Error δ α) where
  keeps _ hs := hs
  congr _ _ _ _ h := ⟨rfl, h⟩
  spares s other _ _ := (equivalence other).refl s

theorem LocalTo.bind (h : LocalTo sound same part act) (hf : ∀ a, LocalTo sound same part (f a)) :
    LocalTo sound same part (act >>= f) where
  keeps s hs := by
    cases ha : outcome (act s) with
    | ok a =>
        rw [bind_of_ok ha]
        exact (hf a).keeps _ (h.keeps s hs)
    | error e =>
        rw [bind_of_error ha]
        exact h.keeps s hs
  congr s s' hs hs' hsame := by
    obtain ⟨ho, hfinal⟩ := h.congr s s' hs hs' hsame
    cases ha : outcome (act s) with
    | ok a =>
        have ha' := ho.symm.trans ha
        rw [bind_of_ok ha, bind_of_ok ha']
        exact (hf a).congr _ _ (h.keeps s hs) (h.keeps s' hs') hfinal
    | error e =>
        rw [bind_of_error ha, bind_of_error (ho.symm.trans ha)]
        exact ⟨rfl, hfinal⟩
  spares s other hs hne := by
    have hact := h.spares s other hs hne
    cases ha : outcome (act s) with
    | ok a =>
        rw [bind_of_ok ha]
        exact (equivalence other).trans hact ((hf a).spares _ other (h.keeps s hs) hne)
    | error e =>
        rw [bind_of_error ha]
        exact hact

theorem localTo_ofExcept_bind {x : Except Error α}
    (h : ∀ a, x = .ok a → LocalTo sound same part (f a)) :
    LocalTo sound same part (ofExcept x >>= f) := by
  cases x with
  | ok a =>
      rw [ofExcept_ok, pure_bind]
      exact h a rfl
  | error e =>
      exact ⟨fun _ hs => hs, fun _ _ _ _ hsame => ⟨rfl, hsame⟩, fun s other _ _ =>
        (equivalence other).refl s⟩

end

/-! ## Storages with parts -/

/-- What a call does depends on the part that it names, and so does what it changes. A registry
that has been saved is loaded again, and saving it once more goes like the first time; after a
save that failed the registry loads as before. -/
structure Storage.Parted [Storage δ] (sound : δ → Prop) (same : Part → δ → δ → Prop) : Prop where
  equivalence : ∀ part, Equivalence (same part)
  calm : Storage.Calm sound
  loadRegistry : ∀ s s', sound s → sound s' → same .registry s s' →
    outcome (Storage.loadRegistry s) = outcome (Storage.loadRegistry s')
  loadTable : ∀ t s s', sound s → sound s' → same (.table t) s s' →
    outcome (Storage.loadTable t s) = outcome (Storage.loadTable t s')
  saveRegistry : ∀ r, LocalTo sound same .registry (Storage.saveRegistry (σ := δ) r)
  saveTable : ∀ t rows, LocalTo sound same (.table t) (Storage.saveTable (σ := δ) t rows)
  removeTable : ∀ t, LocalTo sound same (.table t) (Storage.removeTable (σ := δ) t)
  saved : ∀ r s, sound s → Ensures (Storage.saveRegistry r) s
    (fun _ s' => outcome (Storage.loadRegistry s') = .ok ⟨r, none⟩)
    fun _ s' => outcome (Storage.loadRegistry s') = outcome (Storage.loadRegistry s)
  resaved : ∀ r s, sound s →
    outcome (Storage.saveRegistry r (finalState (Storage.saveRegistry r s))) =
      outcome (Storage.saveRegistry r s)

variable [Storage δ]

/-- Saves the registry, or does nothing. -/
def Storage.saveIf (r : Registry) (saves : Bool) : EStateM Error δ Unit :=
  if saves then Storage.saveRegistry r else pure ()

theorem Storage.saveIf_comm (r : Registry) (saves saves' : Bool) (s : δ) :
    finalState (saveIf r saves (finalState (saveIf r saves' s))) =
      finalState (saveIf r saves' (finalState (saveIf r saves s))) := by
  cases saves <;> cases saves' <;> rfl

/-- What concerns a table is in one state as in the other: its document, and its entry in the
registry. -/
structure Storage.Agrees (same : Part → δ → δ → Prop) (table : String) (s s' : δ) : Prop where
  rows : same (.table table) s s'
  entry : (outcome (Storage.currentRegistry s')).map (·.get? table) =
    (outcome (Storage.currentRegistry s)).map (·.get? table)

namespace Storage.Parted

variable (parted : Storage.Parted sound same) {r : Registry} {s s' s'' : δ} {saves : Bool}
include parted

theorem finalState_currentRegistry (s : δ) : finalState (Storage.currentRegistry s) = s :=
  (finalState_bind_pure _).trans (parted.calm.loadRegistry s)

theorem currentRegistry_congr (hs : sound s) (hs' : sound s') (h : same .registry s s') :
    outcome (Storage.currentRegistry s) = outcome (Storage.currentRegistry s') := by
  rw [Storage.currentRegistry, outcome_bind_pure, outcome_bind_pure,
    parted.loadRegistry s s' hs hs' h]

theorem localTo_loadRows (t : String) :
    LocalTo sound same (.table t) (Storage.loadRows t : EStateM Error δ (List Row)) := by
  have hload : LocalTo sound same (.table t) (Storage.loadTable (σ := δ) t) := by
    refine ⟨fun s hs => ?_, fun s s' hs hs' h => ?_, fun s other _ _ => ?_⟩
    · rwa [parted.calm.loadTable]
    · rw [parted.calm.loadTable, parted.calm.loadTable]
      exact ⟨parted.loadTable t s s' hs hs' h, h⟩
    · rw [parted.calm.loadTable]
      exact (parted.equivalence other).refl s
  exact hload.bind parted.equivalence fun _ => localTo_pure parted.equivalence _

/-- After a save the registry that is found is the saved one, or the one that was there if the save
fails. -/
theorem saved_currentRegistry (r : Registry) (hs : sound s) :
    Ensures (Storage.saveRegistry r) s
      (fun _ s' => outcome (Storage.currentRegistry s') = .ok r)
      fun _ s' => outcome (Storage.currentRegistry s') = outcome (Storage.currentRegistry s) := by
  refine (parted.saved r s hs).mono ?_ ?_
  · intro _ s' h
    rw [Storage.currentRegistry, outcome_bind_pure, h]
    rfl
  · intro e s' h
    rw [Storage.currentRegistry, outcome_bind_pure, outcome_bind_pure, h]

/-! What was found is saved again. -/

theorem localTo_saveIf (r : Registry) (saves : Bool) :
    LocalTo sound same .registry (Storage.saveIf r saves : EStateM Error δ Unit) := by
  cases saves with
  | false => exact localTo_pure parted.equivalence ()
  | true => exact parted.saveRegistry r

theorem saveIf_currentRegistry (hs : sound s) (hr : outcome (Storage.currentRegistry s) = .ok r) :
    outcome (Storage.currentRegistry (finalState (Storage.saveIf r saves s))) = .ok r := by
  cases saves with
  | false => exact hr
  | true =>
      exact ((parted.saved_currentRegistry r hs).mono (fun _ _ h => h) fun _ _ h => h.trans hr).final

theorem saveIf_saveRegistry (hs : sound s) :
    outcome (Storage.saveRegistry r (finalState (Storage.saveIf r saves s))) =
      outcome (Storage.saveRegistry r s) := by
  cases saves with
  | false => rfl
  | true => exact parted.resaved r s hs

/-! What concerns a table stays as it is. -/

theorem agrees_refl (table : String) (s : δ) : Storage.Agrees same table s s :=
  ⟨(parted.equivalence _).refl s, rfl⟩

theorem agrees_trans {table : String} (h : Storage.Agrees same table s s')
    (h' : Storage.Agrees same table s' s'') : Storage.Agrees same table s s'' :=
  ⟨(parted.equivalence _).trans h.rows h'.rows, h'.entry.trans h.entry⟩

/-- A save of another registry, which has the same entry for the table. -/
theorem agrees_saveRegistry {table : String} (hs : sound s)
    (hr : outcome (Storage.currentRegistry s) = .ok r) {r' : Registry}
    (h : r'.get? table = r.get? table) :
    Storage.Agrees same table s (finalState (Storage.saveRegistry r' s)) := by
  refine ⟨(parted.saveRegistry r').spares s (.table table) hs nofun, ?_⟩
  refine ((parted.saved_currentRegistry r' hs).mono ?_ ?_).final (P := fun s' =>
    (outcome (Storage.currentRegistry s')).map (·.get? table) =
      (outcome (Storage.currentRegistry s)).map (·.get? table))
  · intro _ s' h'
    rw [h', hr]
    exact congrArg Except.ok h
  · intro _ s' h'
    rw [h']

/-! After an action on one table the registry is as it was, and so is all that concerns other
tables. -/

section
variable {act : EStateM Error δ α} {t u : String} (h : LocalTo sound same (.table t) act)
  (hs : sound s)
include h hs

theorem currentRegistry_after : outcome (Storage.currentRegistry (finalState (act s))) =
    outcome (Storage.currentRegistry s) :=
  (parted.currentRegistry_congr hs (h.keeps s hs) (h.spares s .registry hs nofun)).symm

theorem saveRegistry_after (r : Registry) :
    outcome (Storage.saveRegistry r (finalState (act s))) = outcome (Storage.saveRegistry r s) :=
  ((parted.saveRegistry r).congr _ _ hs (h.keeps s hs) (h.spares s .registry hs nofun)).1.symm

theorem agrees_after (hne : u ≠ t) : Storage.Agrees same u s (finalState (act s)) := by
  refine ⟨h.spares s (.table u) hs fun he => hne (Part.table.inj he), ?_⟩
  rw [parted.currentRegistry_after h hs]

end

end Storage.Parted

/-! ## Plans -/

namespace Plan

/-- A plan leaves the entries of other tables as they are. -/
theorem get?_onRegistry {p : Plan} {t u : String} (h : p.table? = some t) (hne : u ≠ t)
    (r : Registry) : (p.onRegistry r).get? u = r.get? u := by
  cases p with
  | answer _ => cases h
  | scan _ _ | visit _ _ => rfl
  | create schema =>
      cases h
      exact (r.get?_insert schema u).trans (if_neg hne)
  | drop schema =>
      cases h
      exact (r.get?_erase schema.name u).trans (if_neg hne)

theorem localTo_onStorage (parted : Storage.Parted sound same) {p : Plan} {t : String}
    (h : p.table? = some t) :
    LocalTo sound same (.table t) (p.onStorage : EStateM Error δ Reply) := by
  have equivalence := parted.equivalence
  cases p with
  | answer _ => cases h
  | scan key reply =>
      cases h
      exact (parted.localTo_loadRows _).bind equivalence fun _ => localTo_pure equivalence _
  | visit _ next =>
      cases h
      refine (parted.localTo_loadRows t).bind equivalence fun rows => ?_
      refine localTo_ofExcept_bind equivalence fun found _ => ?_
      obtain ⟨reply, write⟩ := found
      cases write with
      | none => exact localTo_pure equivalence _
      | some rows' =>
          exact (parted.saveTable t rows').bind equivalence fun _ => localTo_pure equivalence _
  | create schema =>
      cases h
      exact (parted.saveTable _ []).bind equivalence fun _ => localTo_pure equivalence _
  | drop schema =>
      cases h
      exact (parted.removeTable _).bind equivalence fun _ => localTo_pure equivalence _

end Plan

end TableStore
