import TableStore.Proofs.Session

/-!
The scan cache cannot be seen. For storages in memory and in files, with whatever in them at
first, sessions go the same with it and without it, and a database in files may be closed and
opened again at any point.
-/

namespace TableStore

/-! ## Storages -/

namespace Contents

theorem calm : Storage.Calm fun _ : Contents => True where
  loadRegistry _ := rfl
  loadTable _ _ := rfl
  saveRegistry _ _ _ := ⟨trivial, fun _ => rfl⟩
  saveTable _ _ _ _ := trivial
  removeTable _ _ _ := trivial

end Contents

namespace MemoryStorage

/-- All that shows of a storage in memory are its contents; its counters do not. -/
theorem shows : Storage.Shows contents where
  loadRegistry _ _ := ⟨rfl, trivial⟩
  saveRegistry _ _ _ := ⟨rfl, trivial⟩
  loadTable _ _ _ := ⟨rfl, trivial⟩
  saveTable table rows m _ := by
    refine ⟨congrArg (EStateM.Result.ok ()) ?_, trivial⟩
    exact Contents.ext rfl fun t => (rows?_save m table t rows).symm
  removeTable table m _ := by
    refine ⟨congrArg (EStateM.Result.ok ()) ?_, trivial⟩
    exact Contents.ext rfl fun t => (rows?_remove m table t).symm

end MemoryStorage

/-! ## Sittings -/

namespace Session

open FileSystem (Grows)

/-- Opens the files under a root, serves requests and closes the database again. -/
def sitting (root : Path) (cacheEnabled : Bool) (requests : List Request) :
    EStateM Error (Session FileSystem) (List (Except Error Reply)) := fun w =>
  match (Config.mk (.underRoot root) cacheEnabled).openFiles w.base with
  | .error e fs => .error e (w.withBase fs)
  | .ok engine _ =>
    let run := runAll (requests.map Request.serve) ⟨w.registries, engine⟩
    .ok run.1 ⟨run.2.registries, run.2.base.source.storage.files⟩

/-- One sitting after the other, each with its cache enabled or not. -/
def sittings (root : Path) :
    List (Bool × List Request) → EStateM Error (Session FileSystem) (List (Except Error Reply))
  | [] => return []
  | (cacheEnabled, requests) :: rest =>
    return (← sitting root cacheEnabled requests) ++ (← sittings root rest)

/-- What happens to the files when a database is opened. -/
def opening (root : Path) : EStateM Error FileSystem Unit := do
  ofExcept (Config.underRoot root).validate
  (FileLayout.underRoot root).prepare

variable {root : Path} {fs fs₀ fs₁ : FileSystem}

theorem openFiles_eq (root : Path) (cacheEnabled : Bool) (fs : FileSystem) :
    (Config.mk (.underRoot root) cacheEnabled).openFiles fs =
      match opening root fs with
      | .error e fs => .error e fs
      | .ok _ fs => .ok (.create cacheEnabled (FileStorage.under root fs)) fs := by
  have hv : (Config.mk (.underRoot root) cacheEnabled).validate =
    (Config.underRoot root).validate := rfl
  simp only [Config.openFiles, opening, bind_apply, hv]
  cases (Config.underRoot root).validate with
  | error e => rfl
  | ok _ =>
      simp only [ofExcept_ok_apply]
      cases (FileLayout.underRoot root).prepare fs <;> rfl

/-- Files that have been opened once can be opened again, which changes nothing. -/
theorem opening_again (h : opening root fs₀ = .ok () fs₁) (hg : Grows fs₁ fs) :
    opening root fs = .ok () fs := by
  simp only [opening, bind_apply] at h ⊢
  cases hv : (Config.underRoot root).validate with
  | error e => rw [hv] at h; cases h
  | ok _ =>
      simp only [hv, ofExcept_ok_apply] at h ⊢
      obtain ⟨-, hp⟩ := (FileLayout.prepare_grows _ fs₀).ok h
      exact FileLayout.prepare_of_prepared (hp.grows hg)

def sittingDirect (root : Path) (requests : List Request) :
    EStateM Error (Session FileSystem) (List (Except Error Reply)) := fun w =>
  match opening root w.base with
  | .error e fs => .error e (w.withBase fs)
  | .ok _ fs =>
    let run := runAll (requests.map Request.serveDirect) ⟨w.registries, FileStorage.under root fs⟩
    .ok run.1 ⟨run.2.registries, run.2.base.files⟩

theorem sitting_eq_direct (root : Path) (cacheEnabled : Bool) (requests : List Request) :
    sitting root cacheEnabled requests = sittingDirect root requests := by
  funext w
  rw [sitting, sittingDirect]
  rw [openFiles_eq]
  cases opening root w.base with
  | error e fs => rfl
  | ok _ fs =>
      obtain ⟨ho, hv, -⟩ := run_eq_direct (FileStorage.calm root fs) Storage.shows_self cacheEnabled
        w.registries (s := FileStorage.under root fs) ⟨rfl, .refl fs⟩ requests
      refine congr (congrArg EStateM.Result.ok ho) ?_
      exact congrArg (fun v : Session FileStorage => Session.mk v.registries v.base.files) hv

/-- A run without a cache stays in the files under the root and removes no directory. -/
theorem within_of_runDirect (root : Path) (requests : List Request)
    (registries : String → Registry) (fs : FileSystem) :
    FileStorage.Within root fs (runAll (requests.map Request.serveDirect)
      ⟨registries, FileStorage.under root fs⟩).2.base := by
  obtain ⟨-, hv, hc⟩ := run_eq_direct (FileStorage.calm root fs) Storage.shows_self false
    registries (s := FileStorage.under root fs) ⟨rfl, .refl fs⟩ requests
  have hs : FileStorage.Within root fs (Session.view id _).base := hc.sound
  rw [hv] at hs
  exact hs

theorem sittingDirect_append (root : Path) (requests requests' : List Request) :
    sittingDirect root (requests ++ requests') =
      (do return (← sittingDirect root requests) ++ (← sittingDirect root requests')) := by
  funext w
  simp only [bind_apply]
  simp only [sittingDirect]
  cases ho : opening root w.base with
  | error e fs => rfl
  | ok _ fs =>
      obtain ⟨hl, hg⟩ := within_of_runDirect root requests w.registries fs
      simp only [opening_again ho hg, List.map_append, runAll_append, pure_apply,
        FileStorage.under_files hl]

/-- A database in files may be closed and opened again between any two requests. -/
theorem sittings_eq (root : Path) (cacheEnabled cacheEnabled' : Bool) (requests : List Request)
    (rest : List (Bool × List Request)) :
    sittings root ((cacheEnabled, requests) :: rest) =
      sitting root cacheEnabled' (requests ++ rest.flatMap Prod.snd) := by
  rw [sitting_eq_direct]
  induction rest generalizing cacheEnabled requests with
  | nil =>
      simp only [sittings, sitting_eq_direct, pure_bind, List.append_nil, List.flatMap_nil, bind_pure]
  | cons s rest ih =>
      obtain ⟨cacheEnabled₂, requests₂⟩ := s
      rw [sittings, ih, sitting_eq_direct, List.flatMap_cons, ← sittingDirect_append]

end Session

/-! ## The cache -/

/-- In every state of a session, a selection that succeeds gives the rows that its table loads
as at that moment and that the filter lets through, in stored order; and a description counts
as many rows as a selection of all rows gives, where each of the two succeeds if the other one
does. -/
def ReadsExact {σ : Type} [Storage σ] (s : σ) : Prop :=
  ∀ (cacheEnabled : Bool) (registries : String → Registry) (requests : List Request),
    let w := (runAll (requests.map Request.serve) (Session.create cacheEnabled registries s)).2
    (∀ holder table filter reply w',
      (⟨holder, .select table filter⟩ : Request).serve w = .ok reply w' →
        ∃ loaded, outcome (Storage.loadTable table w.base.source.storage) = .ok loaded ∧
          reply = .rows (loaded.value.filter (selects filter))) ∧
    ∀ holder table count,
      (∃ info, outcome ((⟨holder, .infoTable table⟩ : Request).serve w) = .ok (.info info) ∧
          info.rowCount = count) ↔
        ∃ rows, outcome ((⟨holder, .select table none⟩ : Request).serve w) = .ok (.rows rows) ∧
          rows.length = count

theorem readsExact {σ δ : Type} [Storage σ] [Storage δ] {sound : δ → Prop} {view : σ → δ}
    (calm : Storage.Calm sound) (shows : Storage.Shows view) {s : σ} (hs : sound (view s)) :
    ReadsExact s := by
  intro cacheEnabled registries requests
  obtain ⟨-, -, hw⟩ := Session.run_eq_direct calm shows cacheEnabled registries hs requests
  exact ⟨fun _ _ _ _ _ h => Request.select_exact calm shows hw h,
    Request.info_exact calm shows hw⟩

/-- The scan cache is invisible, for a storage in memory and for a storage in files under any
root, the empty one of the default layout included, whatever is stored at first. -/
theorem scanCache_invisible :
    (∀ m : MemoryStorage, CacheInvisible MemoryStorage.contents m ∧ ReadsExact m) ∧
      (∀ root fs, CacheInvisible id (FileStorage.under root fs) ∧
        ReadsExact (FileStorage.under root fs)) ∧
      ∀ root cacheEnabled cacheEnabled' requests rest,
        Session.sittings root ((cacheEnabled, requests) :: rest) =
          Session.sitting root cacheEnabled' (requests ++ rest.flatMap Prod.snd) := by
  refine ⟨fun m => ?_, fun root fs => ?_, Session.sittings_eq⟩
  · exact ⟨cacheInvisible Contents.calm MemoryStorage.shows trivial,
      readsExact Contents.calm MemoryStorage.shows trivial⟩
  · have hs : FileStorage.Within root fs (id (FileStorage.under root fs)) := ⟨rfl, .refl fs⟩
    exact ⟨cacheInvisible (FileStorage.calm root fs) Storage.shows_self hs,
      readsExact (FileStorage.calm root fs) Storage.shows_self hs⟩

end TableStore
