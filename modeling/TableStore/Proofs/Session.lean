import TableStore.Database
import TableStore.Proofs.Files

/-!
Sessions: callers send commands to an engine, with registries that they hold themselves or
with the stored one. A session of a coherent engine does what it does without a cache.
-/

namespace TableStore

/-- Something that serves commands, and the registries that its callers hold. -/
structure Session (β : Type) where
  registries : String → Registry
  base : β

/-- A command from a caller, who may hold a registry. A command from nobody in particular goes
to the database, which uses the stored registry. -/
structure Request where
  holder : Option String
  command : Command

namespace Session

variable {β : Type}

def held (holder : String) (w : Session β) : Registry × β := (w.registries holder, w.base)

def hold (holder : String) (w : Session β) (part : Registry × β) : Session β :=
  ⟨fun h => if h = holder then part.1 else w.registries h, part.2⟩

def withBase (w : Session β) (base : β) : Session β := { w with base := base }

end Session

variable {σ δ : Type} [Storage σ] [Storage δ]

namespace Request

def serve (r : Request) : EStateM Error (Session (Engine σ)) Reply :=
  match r.holder with
  | none => onPart Session.base Session.withBase r.command.run
  | some holder =>
    onPart (fun w => ⟨w.registries holder, w.base⟩)
      (fun w s => w.hold holder (s.registry, s.engine)) r.command.perform

/-- Serves a request from a storage without a cache. -/
def serveDirect (r : Request) : EStateM Error (Session δ) Reply :=
  match r.holder with
  | none => onPart Session.base Session.withBase r.command.runDirect
  | some holder => onPart (Session.held holder) (Session.hold holder) r.command.performDirect

end Request

/-- What shows of a session in the view of its storage. -/
def Session.view (view : σ → δ) (w : Session (Engine σ)) : Session δ :=
  ⟨w.registries, view w.base.source.storage⟩

variable {sound : δ → Prop} {view : σ → δ}

theorem Request.mirrors (calm : Storage.Calm sound) (shows : Storage.Shows view) (r : Request) :
    Mirrors (fun w : Session (Engine σ) => w.base.Coherent sound view) (Session.view view) r.serve
      r.serveDirect := by
  obtain ⟨holder, c⟩ := r
  cases holder with
  | none =>
      exact mirrors_onPart (c.mirrors_run calm shows) (fun _ => rfl) (fun _ _ => rfl)
        (fun _ h => h) fun _ _ _ h => h
  | some holder =>
      exact mirrors_onPart (c.mirrors_perform calm shows) (fun _ => rfl) (fun _ _ => rfl)
        (fun _ h => h) fun _ _ _ h => h

/-! ## Runs -/

def Session.create (cacheEnabled : Bool) (registries : String → Registry) (s : σ) :
    Session (Engine σ) :=
  ⟨registries, .create cacheEnabled s⟩

omit [Storage σ] in
theorem Engine.coherent_create (cacheEnabled : Bool) {s : σ} (hs : sound (view s)) :
    (Engine.create cacheEnabled s).Coherent sound view :=
  ⟨hs, fun _ _ hp => nomatch hp⟩

/-- A run of a new session has the outcomes that it has without a cache. -/
theorem Session.run_eq_direct (calm : Storage.Calm sound) (shows : Storage.Shows view)
    (cacheEnabled : Bool) (registries : String → Registry) {s : σ} (hs : sound (view s))
    (requests : List Request) :
    let w := runAll (requests.map Request.serve) (Session.create cacheEnabled registries s)
    let w' := runAll (requests.map Request.serveDirect) ⟨registries, view s⟩
    w.1 = w'.1 ∧ w.2.view view = w'.2 ∧ w.2.base.Coherent sound view := by
  have h := runAll_mirrors (fun r : Request => r.mirrors calm shows) requests
    (s := Session.create cacheEnabled registries s) (Engine.coherent_create cacheEnabled hs)
  exact h

/-- A run has the same outcomes and leaves the same registries and the same view of the storage
whether the cache is enabled or not. -/
def CacheInvisible (view : σ → δ) (s : σ) : Prop :=
  ∀ (cacheEnabled cacheEnabled' : Bool) (registries : String → Registry)
    (requests : List Request),
    let w := runAll (requests.map Request.serve) (Session.create cacheEnabled registries s)
    let w' := runAll (requests.map Request.serve) (Session.create cacheEnabled' registries s)
    w.1 = w'.1 ∧ w.2.view view = w'.2.view view

theorem cacheInvisible (calm : Storage.Calm sound) (shows : Storage.Shows view) {s : σ}
    (hs : sound (view s)) : CacheInvisible view s := by
  intro cacheEnabled cacheEnabled' registries requests
  obtain ⟨ho, hv, -⟩ := Session.run_eq_direct calm shows cacheEnabled registries hs requests
  obtain ⟨ho', hv', -⟩ := Session.run_eq_direct calm shows cacheEnabled' registries hs requests
  exact ⟨ho.trans ho'.symm, hv.trans hv'.symm⟩

/-! ## Reads -/

namespace Command

/-- What a command answers from a storage alone. -/
def answer (c : Command) (r : Registry) (s : δ) : Except Error Reply :=
  c.plan r >>= fun p => outcome (p.onStorage s)

theorem outcome_performDirect (c : Command) (r : Registry) (s : δ) :
    outcome (c.performDirect (r, s)) = c.answer r s := by
  rw [performDirect, answer]
  cases c.plan r with
  | error e => rfl
  | ok p =>
      simp only [bind, Except.bind]
      cases p.onStorage s <;> rfl

theorem outcome_runDirect (calm : Storage.Calm sound) {c : Command} (hc : c.isMutating = false)
    (s : δ) :
    outcome (c.runDirect s) = outcome (Storage.currentRegistry s) >>= fun r => c.answer r s := by
  have hl : finalState (Storage.currentRegistry s) = s :=
    (finalState_bind_pure _).trans (calm.loadRegistry s)
  simp only [runDirect, hc, Bool.false_eq_true, ite_false, bind_pure]
  rw [outcome_bind hl]
  simp only [outcome_ofExcept_bind, answer]

/-- The answer to a selection is made of the rows that the table loads as. -/
theorem answer_select (r : Registry) (table : String) (filter : Option Predicate) (s : δ) :
    (select table filter).answer r s =
      r.schema table >>= fun schema => checkFilter filter schema >>= fun _ =>
        (outcome (Storage.loadTable table s)).map fun loaded =>
          .rows (loaded.value.filter (selects filter)) := by
  simp only [answer, plan, bind_assoc, pure_bind, Plan.onStorage, Storage.loadRows,
    outcome_bind_pure]

theorem answer_infoTable (r : Registry) (table : String) (s : δ) :
    (infoTable table).answer r s =
      r.schema table >>= fun schema =>
        (outcome (Storage.loadTable table s)).map fun loaded =>
          .info ⟨schema.name, schema.columns, loaded.value.length⟩ := by
  simp only [answer, plan, bind_assoc, pure_bind, Plan.onStorage, Storage.loadRows,
    Visit.info, ofExcept_ok, outcome_bind_pure]

end Command

namespace Request

def registry (r : Request) (w : Session δ) : Except Error Registry :=
  match r.holder with
  | none => outcome (Storage.currentRegistry w.base)
  | some holder => .ok (w.registries holder)

theorem outcome_onPart {ε τ α β : Type} {part : τ → β} {replace : τ → β → τ}
    {act : EStateM ε β α} {t : τ} :
    outcome (onPart part replace act t) = outcome (act (part t)) := by
  rw [onPart]
  cases act (part t) <;> rfl

theorem outcome_serveDirect (calm : Storage.Calm sound) (r : Request)
    (hc : r.command.isMutating = false) (w : Session δ) :
    outcome (r.serveDirect w) = r.registry w >>= fun g => r.command.answer g w.base := by
  obtain ⟨holder, c⟩ := r
  cases holder with
  | none => exact outcome_onPart.trans (c.outcome_runDirect calm hc w.base)
  | some holder => exact outcome_onPart.trans (c.outcome_performDirect _ w.base)

variable (calm : Storage.Calm sound) (shows : Storage.Shows view) {w : Session (Engine σ)}
  (hw : w.base.Coherent sound view)
include calm shows hw

theorem outcome_serve (r : Request) (hc : r.command.isMutating = false) :
    outcome (r.serve w) =
      r.registry (w.view view) >>= fun g => r.command.answer g (view w.base.source.storage) :=
  ((r.mirrors calm shows).outcome_eq hw).1.trans (outcome_serveDirect calm r hc _)

/-- A selection gives the rows that the table loads as at that moment and that the filter lets
through, in stored order. -/
theorem select_exact {holder : Option String} {table : String} {filter : Option Predicate}
    {reply : Reply} {w' : Session (Engine σ)}
    (h : (⟨holder, .select table filter⟩ : Request).serve w = .ok reply w') :
    ∃ loaded, outcome (Storage.loadTable table w.base.source.storage) = .ok loaded ∧
      reply = .rows (loaded.value.filter (selects filter)) := by
  have ho := (outcome_serve calm shows hw ⟨holder, .select table filter⟩ rfl).symm.trans
    (outcome_of_ok h)
  simp only [Command.answer_select] at ho
  obtain ⟨g, -, ho⟩ := exceptBind_eq_ok.mp ho
  obtain ⟨schema, -, ho⟩ := exceptBind_eq_ok.mp ho
  obtain ⟨_, -, ho⟩ := exceptBind_eq_ok.mp ho
  obtain ⟨loaded, hl, rfl⟩ := exceptMap_eq_ok.mp ho
  exact ⟨loaded, ((shows.loadTable table).outcome_eq trivial).1.trans hl, rfl⟩

/-- The description of a table counts the rows that selecting all of them gives; each of the two
succeeds if the other one does. -/
theorem info_exact (holder : Option String) (table : String) (count : Nat) :
    (∃ info, outcome ((⟨holder, .infoTable table⟩ : Request).serve w) = .ok (.info info) ∧
        info.rowCount = count) ↔
      ∃ rows, outcome ((⟨holder, .select table none⟩ : Request).serve w) = .ok (.rows rows) ∧
        rows.length = count := by
  rw [outcome_serve calm shows hw _ rfl, outcome_serve calm shows hw _ rfl]
  simp only [Command.answer_select, Command.answer_infoTable]
  have hall : ∀ rows : List Row, rows.filter (selects none) = rows :=
    fun rows => List.filter_eq_self.mpr fun _ _ => rfl
  constructor
  · intro h
    obtain ⟨info, hi, rfl⟩ := h
    obtain ⟨g, hg, hi⟩ := exceptBind_eq_ok.mp hi
    obtain ⟨schema, hs, hi⟩ := exceptBind_eq_ok.mp hi
    obtain ⟨loaded, hl, hi⟩ := exceptMap_eq_ok.mp hi
    cases hi
    refine ⟨loaded.value.filter (selects none), ?_, by rw [hall]⟩
    exact exceptBind_eq_ok.mpr ⟨g, hg, exceptBind_eq_ok.mpr ⟨schema, hs,
      exceptBind_eq_ok.mpr ⟨(), rfl, exceptMap_eq_ok.mpr ⟨loaded, hl, rfl⟩⟩⟩⟩
  · intro h
    obtain ⟨rows, hr, rfl⟩ := h
    obtain ⟨g, hg, hr⟩ := exceptBind_eq_ok.mp hr
    obtain ⟨schema, hs, hr⟩ := exceptBind_eq_ok.mp hr
    obtain ⟨_, -, hr⟩ := exceptBind_eq_ok.mp hr
    obtain ⟨loaded, hl, hr⟩ := exceptMap_eq_ok.mp hr
    cases hr
    refine ⟨⟨schema.name, schema.columns, loaded.value.length⟩, ?_, by rw [hall]⟩
    exact exceptBind_eq_ok.mpr ⟨g, hg, exceptBind_eq_ok.mpr ⟨schema, hs,
      exceptMap_eq_ok.mpr ⟨loaded, hl, rfl⟩⟩⟩

end Request
end TableStore
