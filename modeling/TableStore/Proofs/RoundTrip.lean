import TableStore.Proofs.Encoding
import TableStore.Proofs.Files

/-!
Documents survive being read and written. What is written is read back, so that writing it once
more gives the same text; and a text in any other form is brought into this form once, without
any change of what it says. This is what becomes of the registry around every change of rows.
-/

namespace TableStore

/-! ## Texts -/

namespace Document

variable {α : Type} [Document α]

theorem parse?_pretty {a : α} (h : ofJson? (toJson a) = some a) : parse? (pretty a) = some a := by
  rw [parse?, pretty, Json.ofText?_pretty]
  exact h

theorem parse?_compact {a : α} (h : ofJson? (toJson a) = some a) :
    parse? (compact a) = some a := by
  rw [parse?, compact, Json.ofText?_compact]
  exact h

/-- A text read and written anew, if it holds data of the kind. -/
def rewrite? (α : Type) [Document α] (text : String) : Option String :=
  (parse? text : Option α).map pretty

/-- Nothing is lost between a kind of data and its documents. -/
structure Lossless (α : Type) [Document α] : Prop where
  parse?_pretty : ∀ a : α, parse? (pretty a) = some a
  parse?_compact : ∀ a : α, parse? (compact a) = some a
  decode?_encode : ∀ a : α, decode? (encode a) = some a
  /-- What has been read is written as it was. -/
  pretty_again : ∀ a b : α, parse? (pretty a) = some b → pretty b = pretty a
  compact_again : ∀ a b : α, parse? (compact a) = some b → compact b = compact a
  /-- The data of any text, whoever wrote it, survive being written and read. -/
  parse?_again : ∀ text (a : α), parse? text = some a →
    parse? (pretty a) = some a ∧ parse? (compact a) = some a
  rewrite?_again : ∀ text, rewrite? α text >>= rewrite? α = rewrite? α text

theorem lossless (h : ∀ a : α, ofJson? (toJson a) = some a) : Lossless α where
  parse?_pretty a := Document.parse?_pretty (h a)
  parse?_compact a := Document.parse?_compact (h a)
  decode?_encode a := Document.decode?_encode (h a)
  pretty_again a b hb := by
    rw [Document.parse?_pretty (h a)] at hb
    rw [Option.some.inj hb]
  compact_again a b hb := by
    rw [Document.parse?_compact (h a)] at hb
    rw [Option.some.inj hb]
  parse?_again _ a _ := ⟨Document.parse?_pretty (h a), Document.parse?_compact (h a)⟩
  rewrite?_again text := by
    simp only [rewrite?]
    cases (parse? text : Option α) with
    | none => rfl
    | some a => exact congrArg (Option.map pretty) (Document.parse?_pretty (h a))

end Document

/-! ## Files -/

namespace FileStorage

variable {s s' : FileStorage} {table : String}

theorem loadTable_of_saveTable {rows : List Row} (h : Storage.saveTable table rows s = .ok () s') :
    Storage.loadTable table s' = .ok ⟨rows, none⟩ s' := by
  obtain ⟨hl, file, hfile, hread⟩ := read_of_saveTable h
  refine onFiles_eq_ok.mpr ⟨?_, rfl⟩
  rw [hl, bind_apply, hfile]
  exact FileSystem.loadDocument_encode (Document.decode?_encode_rows rows) hread

end FileStorage

/-- Tables survive being written and read: all rows in their order, all columns in theirs, and
all values with their types. What a storage in files has saved it loads, and saving what was
loaded leaves the same bytes in the file. -/
theorem rows_roundTrip :
    Document.Lossless (List Row) ∧
    ∀ (s s' : FileStorage) (table : String) (rows : List Row),
      Storage.saveTable table rows s = .ok () s' →
      Storage.loadTable table s' = .ok ⟨rows, none⟩ s' ∧
      ∃ file, s'.layout.tableFile table = .ok file ∧
        s'.files.read file = .ok (Document.encode rows) ∧
        ∀ loaded s₁ s₂, Storage.loadTable table s' = .ok loaded s₁ →
          Storage.saveTable table loaded.value s₁ = .ok () s₂ →
          s₂.files.read file = s'.files.read file := by
  refine ⟨Document.lossless Rows.ofJson?_toJson, fun s s' table rows h => ?_⟩
  have hload := FileStorage.loadTable_of_saveTable h
  obtain ⟨hl, file, hfile, hread⟩ := FileStorage.read_of_saveTable h
  refine ⟨hload, file, by rw [hl, hfile], hread, fun loaded s₁ s₂ hloaded hsave => ?_⟩
  cases hload.symm.trans hloaded
  obtain ⟨-, file', hfile', hread'⟩ := FileStorage.read_of_saveTable hsave
  rw [hl, hfile] at hfile'
  cases hfile'
  rw [hread', hread]

/-! ## The registry around commands -/

/-- What lasts from a load of the registry until it is saved: the calls for tables keep it, and
so does a save of the registry that fails. -/
structure Storage.Spares {σ : Type} [Storage σ] (inv : σ → Prop) : Prop where
  loadTable : ∀ t (s : σ), inv s → inv (finalState (Storage.loadTable t s))
  saveTable : ∀ t rows (s : σ), inv s → inv (finalState (Storage.saveTable t rows s))
  removeTable : ∀ t (s : σ), inv s → inv (finalState (Storage.removeTable t s))
  unsaved : ∀ r (s : σ) e s', inv s → Storage.saveRegistry r s = .error e s' → inv s'

/-- A plan makes no calls but those for tables. -/
theorem Plan.keeps {σ : Type} [Storage σ] {inv : σ → Prop} (spares : Storage.Spares inv) (p : Plan)
    {e : Engine σ} (he : inv e.source.storage) :
    Ensures p.onEngine e (fun _ e' => inv e'.source.storage) fun _ e' => inv e'.source.storage := by
  have hload (t : String) := ensures_final (spares.loadTable t e.source.storage he)
  have hsave (t : String) (rows : List Row) {e : Engine σ} (he : inv e.source.storage) :
      Ensures (Engine.change (Storage.saveTable t rows)) e (fun _ e' => inv e'.source.storage)
        fun _ e' => inv e'.source.storage :=
    have hs := ensures_final (spares.saveTable t rows e.source.storage he)
    Engine.ensures_change (fun _ h => hs.ok h) fun _ _ h => hs.error h
  have hremove (t : String) := ensures_final (spares.removeTable t e.source.storage he)
  cases p with
  | answer reply => exact he
  | scan key reply =>
      exact ensures_bind (Engine.ensures_scanTable (fun _ _ => he)
        (fun _ _ _ h => (hload key.table).ok h) fun _ _ _ h => (hload key.table).error h)
  | visit table next =>
      refine ensures_bind (Engine.ensures_loadPast ?_ fun _ _ h => (hload table).error h)
      intro loaded s h
      have hs := (hload table).ok h
      refine ensures_bind (ensures_ofExcept ?_ fun _ _ => hs)
      rintro ⟨reply, write⟩ -
      cases write with
      | none => exact hs
      | some rows => exact ensures_bind (hsave table rows hs)
  | create schema => exact ensures_bind (hsave schema.name [] he)
  | drop schema =>
      exact ensures_bind (Engine.ensures_change (fun _ h => (hremove schema.name).ok h)
        fun _ _ h => (hremove schema.name).error h)

namespace FileStorage

/-- The registry file holds the bytes. -/
structure HoldsRegistry (l : FileLayout) (bytes : ByteArray) (s : FileStorage) : Prop where
  layout : s.layout = l
  read : s.files.read l.metadataFile = .ok bytes

theorem finalState_layout {α : Type} (act : FileLayout → EStateM Error FileSystem α)
    (s : FileStorage) : (finalState (onFiles act s)).layout = s.layout := by
  rw [finalState_onFiles]

theorem spares_layout (l : FileLayout) : Storage.Spares fun s : FileStorage => s.layout = l where
  loadTable _ s h := (finalState_layout _ s).trans h
  saveTable _ _ s h := (finalState_layout _ s).trans h
  removeTable _ s h := (finalState_layout _ s).trans h
  unsaved _ _ _ _ h he := (onFiles_eq_error.mp he).2.trans h

/-- Under a root no document of a table lies where the registry is. -/
theorem spares_holds (root : Path) (bytes : ByteArray) :
    Storage.Spares (HoldsRegistry (.underRoot root) bytes) where
  loadTable t s h := by rwa [finalState_loadTable]
  saveTable t rows s h := by
    obtain ⟨l, fs⟩ := s
    obtain ⟨rfl, hread⟩ := h
    refine ((ensures_saveTable t rows).mono ?_ ?_).final
    · rintro _ _ ⟨fs', rfl, -, -, hr, -⟩
      exact ⟨rfl, hr.trans hread⟩
    · rintro _ _ ⟨fs', rfl, -, hr, -⟩
      exact ⟨rfl, hr.trans hread⟩
  removeTable t s h := by
    obtain ⟨l, fs⟩ := s
    obtain ⟨rfl, hread⟩ := h
    refine ((ensures_removeTable t).mono ?_ ?_).final
    · rintro _ _ ⟨fs', rfl, -, -, hr, -⟩
      exact ⟨rfl, hr.trans hread⟩
    · rintro _ _ rfl
      exact ⟨rfl, hread⟩
  unsaved r s e s' h he := by
    obtain ⟨l, fs⟩ := s
    obtain ⟨rfl, hread⟩ := h
    obtain ⟨hsave, hl⟩ := onFiles_eq_error.mp he
    exact ⟨hl, (FileSystem.saveDocument_error hsave).2.trans hread⟩

end FileStorage

open FileStorage (HoldsRegistry)

namespace Command

/-- Whether a command leaves the tables and their schemas as they are. -/
def leavesRegistry : Command → Bool
  | createTable _ _ | dropTable _ => false
  | listTables | infoTable _ | insert _ _ | select _ _ | update _ _ _ | delete _ _ => true

variable {inv : FileStorage → Prop} {l : FileLayout} {e : Engine FileStorage} {c : Command}

/-- Around a command that leaves the registry as it is, the registry that was loaded is saved. -/
theorem ensures_run_of_leavesRegistry (spares : Storage.Spares inv)
    (hl : ∀ s, inv s → s.layout = l) (hc : c.leavesRegistry) (he : inv e.source.storage)
    {loaded : Loaded Registry}
    (hload : Storage.loadRegistry e.source.storage = .ok loaded e.source.storage) :
    Ensures c.run e
      (fun _ e' => if c.isMutating then
        HoldsRegistry l (Document.encode loaded.value) e'.source.storage
        else inv e'.source.storage)
      fun _ e' => inv e'.source.storage := by
  rw [run_eq]
  refine ensures_bind (Engine.ensures_loadPast ?_ ?_)
  · intro loaded' s h
    cases hload.symm.trans h
    refine ensures_bind (ensures_ofExcept ?_ fun _ _ => he)
    intro p hp
    have hkeep : p.onRegistry loaded.value = loaded.value :=
      onRegistry_of_plan (by rintro _ _ rfl; cases hc) (by rintro _ rfl; cases hc) hp
    have hplan := p.keeps (e := (e.withStorage e.source.storage).withReport loaded.corruption)
      spares he
    refine ensures_bind (hplan.mono ?_ fun _ _ h => h)
    intro reply e₁ h₁
    cases c.isMutating with
    | false => exact h₁
    | true =>
        rw [hkeep]
        refine ensures_bind (Engine.ensures_saveRegistry ?_ ?_)
        · intro s' h
          obtain ⟨hlayout, hread⟩ := FileStorage.read_of_saveRegistry h
          rw [hl _ h₁] at hlayout hread
          exact ⟨hlayout, hread⟩
        · intro err s' h
          exact spares.unsaved _ _ _ _ h₁ h
  · intro err s h
    cases hload.symm.trans h

variable {root : Path} {bytes : ByteArray} {r : Registry}

theorem holds_of_run_ok (hc : c.leavesRegistry) (hm : c.isMutating)
    (hr : Document.decode? bytes = some r) (he : HoldsRegistry l bytes e.source.storage)
    {reply : Reply} {e' : Engine FileStorage} (hrun : c.run e = .ok reply e') :
    HoldsRegistry l (Document.encode r) e'.source.storage := by
  have hload : Storage.loadRegistry e.source.storage = .ok ⟨r, none⟩ e.source.storage :=
    FileStorage.loadRegistry_of_read (he.layout ▸ he.read) hr
  have h := (ensures_run_of_leavesRegistry (FileStorage.spares_layout l) (fun _ h => h) hc
    he.layout hload).ok hrun
  rwa [if_pos hm] at h

/-- The registry was saved after the command. -/
def saved (answered : Command × Except Error Reply) : Bool :=
  answered.1.isMutating && answered.2.isOk

theorem holds_run (hc : c.leavesRegistry) (hr : Document.decode? bytes = some r)
    (he : HoldsRegistry (.underRoot root) bytes e.source.storage) :
    HoldsRegistry (.underRoot root)
      (if saved (c, outcome (c.run e)) then Document.encode r else bytes)
      (finalState (c.run e)).source.storage := by
  have hload : Storage.loadRegistry e.source.storage = .ok ⟨r, none⟩ e.source.storage :=
    FileStorage.loadRegistry_of_read (he.layout ▸ he.read) hr
  have hrun := ensures_run_of_leavesRegistry (FileStorage.spares_holds root bytes)
    (fun _ h => h.layout) hc he hload
  refine Ensures.ends (P := fun o (e' : Engine FileStorage) =>
    HoldsRegistry (.underRoot root) (if saved (c, o) then Document.encode r else bytes)
      e'.source.storage) (hrun.mono ?_ ?_)
  · intro reply e' h
    have hs : saved (c, .ok reply) = c.isMutating := Bool.and_true _
    rw [hs]
    cases hm : c.isMutating with
    | true => rwa [hm] at h
    | false => rwa [hm] at h
  · intro err e' h
    have hs : saved (c, .error err) = false := Bool.and_false _
    rwa [hs]

theorem holds_runAll {cs : List Command} (hc : ∀ c ∈ cs, c.leavesRegistry)
    (hr : Document.decode? bytes = some r)
    (he : HoldsRegistry (.underRoot root) bytes e.source.storage) :
    HoldsRegistry (.underRoot root)
      (if (cs.zip (runAll (cs.map run) e).1).any saved then Document.encode r else bytes)
      (runAll (cs.map run) e).2.source.storage := by
  induction cs generalizing bytes e with
  | nil => exact he
  | cons c cs ih =>
      have hstep := holds_run (hc c List.mem_cons_self) hr he
      have hrest := ih (fun c' hc' => hc c' (List.mem_cons_of_mem _ hc')) (by
        split
        · exact Document.decode?_encode_registry r
        · exact hr) hstep
      simp only [List.map_cons, runAll, List.zip_cons_cons, List.any_cons]
      cases hs : saved (c, outcome (c.run e)) with
      | false =>
          rw [hs] at hrest
          exact hrest
      | true =>
          simp only [hs, ite_true, ite_self] at hrest
          exact hrest

end Command

/-- Registries survive being written and read: all tables in their order, and all columns of
each with their types in theirs. A command that changes rows at most, wherever the files are,
leaves the registry file with what it held before, in the form in which registries are written,
and another one leaves it byte for byte. So do runs of such commands under any root, whatever
becomes of each of them. -/
theorem registry_roundTrip :
    Document.Lossless Registry ∧
    (∀ (l : FileLayout) (e e' : Engine FileStorage) (c : Command) (reply : Reply)
      (bytes : ByteArray) (r : Registry), c.leavesRegistry → c.isMutating →
      HoldsRegistry l bytes e.source.storage → Document.decode? bytes = some r →
      c.run e = .ok reply e' →
      Storage.loadRegistry e'.source.storage = .ok ⟨r, none⟩ e'.source.storage ∧
        HoldsRegistry l (Document.encode r) e'.source.storage ∧
        ∀ (c' : Command) (reply' : Reply) (e'' : Engine FileStorage), c'.leavesRegistry →
          c'.isMutating → c'.run e' = .ok reply' e'' →
          HoldsRegistry l (Document.encode r) e''.source.storage) ∧
    ∀ (root : Path) (cacheEnabled : Bool) (fs : FileSystem) (cs : List Command)
      (bytes : ByteArray) (r : Registry), (∀ c ∈ cs, c.leavesRegistry) →
      fs.registryBytes root = .ok bytes → Document.decode? bytes = some r →
      let run := runAll (cs.map Command.run) (.create cacheEnabled (FileStorage.under root fs))
      let s := run.2.source.storage
      Storage.loadRegistry s = .ok ⟨r, none⟩ s ∧
        s.files.registryBytes root =
          .ok (if (cs.zip run.1).any Command.saved then Document.encode r else bytes) := by
  refine ⟨Document.lossless Registry.ofJson?_toJson, ?_, ?_⟩
  · intro l e e' c reply bytes r hc hm he hr hrun
    have he' := Command.holds_of_run_ok hc hm hr he hrun
    have hr' := Document.decode?_encode_registry r
    refine ⟨FileStorage.loadRegistry_of_read (he'.layout ▸ he'.read) hr', he', ?_⟩
    intro c' reply' e'' hc' hm' hrun'
    exact Command.holds_of_run_ok hc' hm' hr' he' hrun'
  · intro root cacheEnabled fs cs bytes r hc hread hr run s
    have h : HoldsRegistry (.underRoot root) _ s := Command.holds_runAll hc hr ⟨rfl, hread⟩
    refine ⟨FileStorage.loadRegistry_of_read (h.layout ▸ h.read) ?_, h.read⟩
    split
    · exact Document.decode?_encode_registry r
    · exact hr

end TableStore
