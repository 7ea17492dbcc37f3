import TableStore.Proofs.Parts

/-!
Commands to a storage that keeps its parts apart. A command leaves the rows of all tables but its
own as they are, and their entries in the registry. Commands on the rows of different tables
commute, although each of them saves the registry: they save what they have found.
-/

namespace TableStore

variable {δ : Type} [Storage δ] {sound : δ → Prop} {same : Part → δ → δ → Prop}

namespace Command

variable {c c' : Command} {t u : String} {r : Registry} {s s' : δ}

/-- The table of a command on rows, or of one that describes a table. -/
def rowsOf? : Command → Option String
  | infoTable table | insert table _ | select table _ | update table _ _ | delete table _ =>
    some table
  | createTable _ _ | dropTable _ | listTables => none

omit [Storage δ] in
theorem table?_of_rowsOf? (h : c.rowsOf? = some t) : c.table? = some t := by
  cases c with
  | infoTable _ | insert _ _ | select _ _ | update _ _ _ | delete _ _ => exact h
  | createTable _ _ | dropTable _ | listTables => cases h

theorem table?_of_planned {p : Plan} (h : Planned r c p) : p.table? = c.table? := by
  cases h with
  | createTable _ defined => exact congrArg some (Schema.define_name defined)
  | dropTable found => exact congrArg some (Registry.schema_name found)
  | listTables | infoTable _ | insert _ _ | select _ _ | update _ _ _ | delete _ _ => rfl

/-- What a command does between loading the registry and saving it. -/
def work (c : Command) (r : Registry) : EStateM Error δ Reply :=
  ofExcept (c.plan r) >>= Plan.onStorage

/-- Whether a run that finds the registry `r` comes to saving it. -/
def saves (c : Command) (r : Registry) (s : δ) : Bool :=
  c.isMutating && (outcome (c.work r s)).isOk

/-- A command on rows saves the registry that it has found. -/
theorem runDirect_eq (h : c.rowsOf? = some t) :
    c.runDirect = (do
      let r ← Storage.currentRegistry
      let reply ← c.work r
      if c.isMutating then Storage.saveRegistry r
      return reply : EStateM Error δ Reply) := by
  simp only [runDirect, work, bind_assoc]
  congr; funext r
  cases hp : c.plan r with
  | error e => rfl
  | ok p =>
      have hr : p.onRegistry r = r := by
        refine onRegistry_of_plan ?_ ?_ hp
        · intro _ _ he
          rw [he] at h
          cases h
        · intro _ he
          rw [he] at h
          cases h
      simp only [ofExcept_ok, pure_bind, hr]

section
variable (hload : finalState (Storage.currentRegistry s) = s)
  (hr : outcome (Storage.currentRegistry s) = .ok r)
include hload hr

theorem finalState_runDirect (h : c.rowsOf? = some t) :
    finalState (c.runDirect s) =
      finalState (Storage.saveIf r (c.saves r s) (finalState (c.work r s))) := by
  rw [runDirect_eq h, bind_of_ok hr, hload, saves]
  cases hw : outcome (c.work r s) with
  | error e =>
      rw [bind_of_error hw, Except.isOk, Except.toBool, Bool.and_false]
      rfl
  | ok reply =>
      rw [bind_of_ok hw, Except.isOk, Except.toBool, Bool.and_true]
      cases c.isMutating with
      | false => rfl
      | true => exact finalState_bind_pure _

theorem outcome_runDirect_rows (h : c.rowsOf? = some t) :
    outcome (c.runDirect s) = outcome (c.work r s) >>= fun reply =>
      if c.isMutating then
        (outcome (Storage.saveRegistry r (finalState (c.work r s)))).map fun _ => reply
      else .ok reply := by
  rw [runDirect_eq h, bind_of_ok hr, hload]
  cases hw : outcome (c.work r s) with
  | error e =>
      rw [bind_of_error hw]
      rfl
  | ok reply =>
      rw [bind_of_ok hw]
      cases c.isMutating with
      | false => rfl
      | true => exact outcome_bind_pure _

end

variable (parted : Storage.Parted sound same)
include parted

theorem localTo_work (h : c.table? = some t) (r : Registry) :
    LocalTo sound same (.table t) (c.work r : EStateM Error δ Reply) :=
  localTo_ofExcept_bind parted.equivalence fun _ hp =>
    Plan.localTo_onStorage parted ((table?_of_planned (planned hp)).trans h)

/-- Where no registry can be loaded, a command fails and changes nothing. -/
theorem runDirect_of_error {e : Error} (h : outcome (Storage.currentRegistry s) = .error e) :
    c.runDirect s = .error e s := by
  rw [runDirect, bind_of_error h, parted.finalState_currentRegistry]

/-- Whatever becomes of a command, it leaves other tables and their entries as they are. -/
theorem agrees_runDirect (h : c.table? = some t) (hne : u ≠ t) (hs : sound s) :
    Storage.Agrees same u s (finalState (c.runDirect s)) := by
  cases hr : outcome (Storage.currentRegistry s) with
  | error e =>
      rw [runDirect_of_error parted hr]
      exact parted.agrees_refl u s
  | ok r =>
      rw [runDirect, bind_of_ok hr, parted.finalState_currentRegistry]
      cases hplanned : c.plan r with
      | error e => exact parted.agrees_refl u s
      | ok p =>
          have hp : p.table? = some t := (table?_of_planned (planned hplanned)).trans h
          have hplan := Plan.localTo_onStorage parted hp
          have hagrees := parted.agrees_after hplan hs hne
          rw [ofExcept_ok, pure_bind]
          cases hwork : outcome (p.onStorage s) with
          | error e =>
              rw [bind_of_error hwork]
              exact hagrees
          | ok reply =>
              rw [bind_of_ok hwork]
              cases c.isMutating with
              | false => exact hagrees
              | true =>
                  have hr₁ := (parted.currentRegistry_after hplan hs).trans hr
                  refine parted.agrees_trans hagrees ?_
                  refine (finalState_bind_pure fun _ => reply).symm ▸ ?_
                  exact parted.agrees_saveRegistry (hplan.keeps s hs) hr₁
                    (p.get?_onRegistry hp hne r)

/-! ## Commands on the rows of different tables -/

/-- What the run of a command on the rows of a table has made of a state in which it has found the
registry `r`. -/
structure Ran (sound : δ → Prop) (same : Part → δ → δ → Prop) (c : Command) (table : String)
    (r : Registry) (s s' : δ) : Prop where
  sound : sound s'
  current : outcome (Storage.currentRegistry s') = .ok r
  saving : outcome (Storage.saveRegistry r s') = outcome (Storage.saveRegistry r s)
  registry : same .registry (finalState (Storage.saveIf r (c.saves r s) s)) s'
  rows : same (.table table) (finalState (c.work r s)) s'
  others : ∀ t, t ≠ table → same (.table t) s s'

section
variable (hs : sound s) (hr : outcome (Storage.currentRegistry s) = .ok r)
include hs hr

theorem ran_runDirect (h : c.rowsOf? = some t) :
    Ran sound same c t r s (finalState (c.runDirect s)) := by
  have hwork := localTo_work parted (table?_of_rowsOf? h) r
  have hs₁ : sound (finalState (c.work r s)) := hwork.keeps s hs
  have hr₁ := (parted.currentRegistry_after hwork hs).trans hr
  have hsave := parted.localTo_saveIf r (c.saves r s)
  rw [finalState_runDirect (parted.finalState_currentRegistry s) hr h]
  refine ⟨hsave.keeps _ hs₁, parted.saveIf_currentRegistry hs₁ hr₁, ?_, ?_,
    hsave.spares _ (.table t) hs₁ nofun, fun u hne => ?_⟩
  · rw [parted.saveIf_saveRegistry hs₁, parted.saveRegistry_after hwork hs]
  · exact (hsave.congr s _ hs hs₁ (hwork.spares s .registry hs nofun)).2
  · have hspared := (parted.agrees_after hwork hs hne).rows
    exact (parted.equivalence _).trans hspared (hsave.spares _ (.table u) hs₁ nofun)

/-- A command on rows does the same where its table and the registry are as before. -/
theorem runDirect_congr (h : c.rowsOf? = some t) (hs' : sound s')
    (hr' : outcome (Storage.currentRegistry s') = .ok r)
    (hsaving : outcome (Storage.saveRegistry r s') = outcome (Storage.saveRegistry r s))
    (hrows : same (.table t) s s') :
    outcome (c.runDirect s') = outcome (c.runDirect s) ∧ c.saves r s' = c.saves r s ∧
      same (.table t) (finalState (c.runDirect s)) (finalState (c.runDirect s')) := by
  have hwork := localTo_work parted (table?_of_rowsOf? h) r
  obtain ⟨ho, hfinal⟩ := hwork.congr s s' hs hs' hrows
  refine ⟨?_, by rw [saves, saves, ho], ?_⟩
  · rw [outcome_runDirect_rows (parted.finalState_currentRegistry s') hr' h,
      parted.saveRegistry_after hwork hs', hsaving,
      outcome_runDirect_rows (parted.finalState_currentRegistry s) hr h,
      parted.saveRegistry_after hwork hs, ho]
  · have hrun := (ran_runDirect parted hs hr h).rows
    have hrun' := (ran_runDirect parted hs' hr' h).rows
    have equivalence := parted.equivalence (.table t)
    exact equivalence.trans (equivalence.symm hrun) (equivalence.trans hfinal hrun')

end

/-- Commands on the rows of different tables commute. -/
theorem commute_runDirect (hc : c.rowsOf? = some t) (hc' : c'.rowsOf? = some u) (hne : t ≠ u)
    (hs : sound s) :
    outcome (c.runDirect (finalState (c'.runDirect s))) = outcome (c.runDirect s) ∧
      outcome (c'.runDirect (finalState (c.runDirect s))) = outcome (c'.runDirect s) ∧
      ∀ part, same part (finalState (c'.runDirect (finalState (c.runDirect s))))
        (finalState (c.runDirect (finalState (c'.runDirect s)))) := by
  have trans {part : Part} {s₁ s₂ s₃ : δ} (h : same part s₁ s₂) (h' : same part s₂ s₃) :
    same part s₁ s₃ := (parted.equivalence part).trans h h'
  have symm {part : Part} {s₁ s₂ : δ} (h : same part s₁ s₂) : same part s₂ s₁ :=
    (parted.equivalence part).symm h
  cases hr : outcome (Storage.currentRegistry s) with
  | error e =>
      have h : c.runDirect s = .error e s := runDirect_of_error parted hr
      have h' : c'.runDirect s = .error e s := runDirect_of_error parted hr
      simp only [h, h', finalState, true_and]
      exact fun part => (parted.equivalence part).refl s
  | ok r =>
      -- Each command runs first in one order, and after the other one in the other order.
      have first := ran_runDirect parted hs hr hc
      have first' := ran_runDirect parted hs hr hc'
      have second := ran_runDirect parted first'.sound first'.current hc
      have second' := ran_runDirect parted first.sound first.current hc'
      obtain ⟨ho, hsaves, hrows⟩ := runDirect_congr parted hs hr hc first'.sound first'.current
        first'.saving (first'.others t hne)
      obtain ⟨ho', hsaves', hrows'⟩ := runDirect_congr parted hs hr hc' first.sound first.current
        first.saving (first.others u hne.symm)
      refine ⟨ho, ho', fun part => ?_⟩
      cases part with
      | registry =>
          have hsave := parted.localTo_saveIf r (c.saves r s)
          have hsave' := parted.localTo_saveIf r (c'.saves r s)
          have hthen := second'.registry
          have hthen' := second.registry
          rw [hsaves'] at hthen
          rw [hsaves] at hthen'
          have hboth := trans (hsave'.congr _ _ (hsave.keeps s hs) first.sound first.registry).2 hthen
          have hboth' :=
            trans (hsave.congr _ _ (hsave'.keeps s hs) first'.sound first'.registry).2 hthen'
          rw [Storage.saveIf_comm] at hboth
          exact trans (symm hboth) hboth'
      | table name =>
          by_cases ht : name = t
          · subst ht
            exact trans (symm (second'.others name hne)) hrows
          · by_cases hu : name = u
            · subst hu
              exact trans (symm hrows') (second.others name hne.symm)
            · have hboth := trans (first.others name ht) (second'.others name hu)
              have hboth' := trans (first'.others name hu) (second.others name ht)
              exact trans (symm hboth) hboth'

end Command
end TableStore
