import TableStore.Config.File
import TableStore.Proofs.Quoting
import TableStore.Proofs.Saves

/-!
A configuration that has been saved is the one that is loaded. What is written for it is a
document of two tables, which is read line by line.
-/

namespace TableStore.Toml

/-! ## Lines -/

/-- The name needs no quotes where it is a key. -/
structure IsBareKey (name : String) : Prop where
  nonempty : name.toList.isEmpty = false
  characters : name.toList.all isBareKeyChar = true

theorem skipBlanks_of_not {c : Char} (h : isBlank c = false) (rest : List Char) :
    skipBlanks (c :: rest) = c :: rest :=
  List.dropWhile_cons_of_neg (Bool.not_eq_true _ ▸ h)

theorem ne_of_bareKeyChar {c d : Char} (hc : isBareKeyChar c = true)
    (hd : isBareKeyChar d = false) : c ≠ d := by
  rintro rfl
  rw [hc] at hd
  cases hd

variable {name : String} {rest : List Char}

namespace IsBareKey

theorem exists_cons (h : IsBareKey name) :
    ∃ c cs, name.toList = c :: cs ∧ isBareKeyChar c = true := by
  obtain ⟨hne, hall⟩ := h
  cases hname : name.toList with
  | nil =>
      rw [hname] at hne
      cases hne
  | cons c cs =>
      rw [hname] at hall
      exact ⟨c, cs, rfl, List.all_eq_true.mp hall c List.mem_cons_self⟩

theorem append_ne (h : IsBareKey name) {c : Char} (hc : isBareKeyChar c = false)
    (rest cs : List Char) : name.toList ++ rest ≠ c :: cs := by
  obtain ⟨d, ds, hname, hd⟩ := h.exists_cons
  rw [hname]
  exact fun heq => ne_of_bareKeyChar hd hc (List.cons.inj heq).1

theorem skipBlanks_append (h : IsBareKey name) (rest : List Char) :
    skipBlanks (name.toList ++ rest) = name.toList ++ rest := by
  obtain ⟨c, cs, hname, hc⟩ := h.exists_cons
  have hblank : isBlank c = false := by
    simp [isBlank, ne_of_bareKeyChar hc (d := ' ') rfl, ne_of_bareKeyChar hc (d := '\t') rfl]
  rw [hname, List.cons_append, skipBlanks_of_not hblank]

/-- A key is read up to the first character that does not belong to it. -/
theorem simpleKey?_append (h : IsBareKey name) {c : Char} (hc : isBareKeyChar c = false) :
    simpleKey? (name.toList ++ c :: rest) = some (name, c :: rest) := by
  have hline : Text.readLine? (name.toList ++ c :: rest) = none := by
    rw [Text.readLine?]
    · exact fun _ => h.append_ne rfl _ _
    · exact fun _ => h.append_ne rfl _ _
  have hall := List.all_eq_true.mp h.characters
  have hc' : ¬ isBareKeyChar c = true := ne_true_of_eq_false hc
  have htake : (name.toList ++ c :: rest).takeWhile isBareKeyChar = name.toList := by
    rw [List.takeWhile_append_of_pos hall, List.takeWhile_cons_of_neg hc', List.append_nil]
  have hdrop : (name.toList ++ c :: rest).dropWhile isBareKeyChar = c :: rest := by
    rw [List.dropWhile_append_of_pos hall, List.dropWhile_cons_of_neg hc']
  have hne : ¬ name.toList.isEmpty = true := ne_true_of_eq_false h.nonempty
  simp only [simpleKey?, hline, htake, hdrop, if_neg hne, String.ofList_toList]

/-- A key without dots, as it stands in front of an equals sign or inside brackets. -/
theorem key?_append (h : IsBareKey name) {c d : Char} {cs : List Char}
    (hc : isBareKeyChar c = false) (hskip : skipBlanks (c :: rest) = d :: cs) (hdot : d ≠ '.') :
    key? (name.toList ++ c :: rest) = some (([], name), d :: cs) := by
  have hparts : keyParts? (maxDepth - 1) (name.toList ++ c :: rest) = some ([name], d :: cs) := by
    rw [maxDepth, keyParts?, h.skipBlanks_append, h.simpleKey?_append hc]
    simp only [Option.bind_eq_bind, Option.bind_some, hskip]
    split
    · next heq => exact absurd (List.cons.inj heq).1 hdot
    · rfl
  rw [key?, hparts]
  rfl

end IsBareKey

theorem line?_blank (rest : List Char) : line? ('\n' :: rest) = some (none, rest) := rfl

/-- A line with the header of a table. -/
theorem line?_header (h : IsBareKey name) (rest : List Char) :
    line? ('[' :: (name.toList ++ ']' :: '\n' :: rest)) =
      some (some (.header ⟨false, [], name⟩), rest) := by
  have hheader : header? false (name.toList ++ ']' :: '\n' :: rest) =
      some (.header ⟨false, [], name⟩, rest) := by
    rw [header?, h.key?_append rfl rfl (by decide)]
    rfl
  rw [line?, skipBlanks_of_not rfl]
  split
  · next heq => exact absurd (List.cons.inj heq).2 (h.append_ne rfl _ _)
  · next heq =>
      rw [← (List.cons.inj heq).2, hheader]
      rfl
  · next hne => exact absurd rfl (hne _)

/-- A line with a key and a value. -/
theorem line?_assignment (h : IsBareKey name) {c : Char} (hc : isBlank c = false)
    {cs : List Char} {value : Toml}
    (hvalue : ∀ fuel, value? (fuel + 1) 0 (c :: cs) = some (value, '\n' :: rest)) :
    line? (name.toList ++ ' ' :: '=' :: ' ' :: c :: cs) =
      some (some (.assignment ⟨[], name, value⟩), rest) := by
  have hassignment : assignment? (name.toList ++ ' ' :: '=' :: ' ' :: c :: cs) =
      some (.assignment ⟨[], name, value⟩, rest) := by
    have hblank : skipBlanks (' ' :: c :: cs) = c :: cs := skipBlanks_of_not hc cs
    rw [assignment?, h.key?_append rfl rfl (by decide)]
    change (value? _ 0 (skipBlanks (' ' :: c :: cs))).bind _ = _
    rw [hblank, hvalue]
    rfl
  have hend : endLine? (name.toList ++ ' ' :: '=' :: ' ' :: c :: cs) = none := by
    have hcomment : skipComment (name.toList ++ ' ' :: '=' :: ' ' :: c :: cs) =
        name.toList ++ ' ' :: '=' :: ' ' :: c :: cs := by
      rw [skipComment]
      exact fun _ => h.append_ne rfl _ _
    obtain ⟨d, ds, hname, hd⟩ := h.exists_cons
    rw [endLine?, h.skipBlanks_append, hcomment, hname]
    exact Text.dropBreak?_eq_none (ne_of_bareKeyChar hd rfl) (ne_of_bareKeyChar hd rfl) _
  rw [line?, h.skipBlanks_append]
  split
  · next heq => exact absurd heq (h.append_ne rfl _ _)
  · next heq => exact absurd heq (h.append_ne rfl _ _)
  · rw [hend, hassignment]
    rfl

/-- A string in any style is a value. -/
theorem value?_of_read? {mark : Char} {cs text : List Char} (hmark : mark = '"' ∨ mark = '\'')
    (h : Text.read? (mark :: cs) = some (text, rest)) (fuel depth : Nat) :
    value? (fuel + 1) depth (mark :: cs) = some (.text (String.ofList text), rest) := by
  have hsimple : simple? (mark :: cs) = some (.text (String.ofList text), rest) := by
    rw [simple?, h]
    · rintro _ heq
      obtain ⟨rfl, -⟩ := List.cons.inj heq
      exact absurd hmark (by decide)
    · rintro _ heq
      obtain ⟨rfl, -⟩ := List.cons.inj heq
      exact absurd hmark (by decide)
  obtain rfl | rfl := hmark
  · exact hsimple
  · exact hsimple

/-- A line that gives a key a text. -/
theorem line?_text (h : IsBareKey name) (s : String) (rest : List Char) :
    line? (name.toList ++ ' ' :: '=' :: ' ' :: (Text.write s ++ '\n' :: rest)) =
      some (some (.assignment ⟨[], name, .text s⟩), rest) := by
  have hread : Text.read? (Text.write s ++ '\n' :: rest) = some (s.toList, '\n' :: rest) :=
    Text.read?_write s nofun nofun
  obtain ⟨cs, hcs⟩ := Text.write_eq_cons s
  have hmark := (Text.style s.toList).mark_eq_or
  rw [hcs, List.cons_append] at hread ⊢
  refine line?_assignment h ?_ fun fuel => ?_
  · obtain hm | hm := hmark <;> rw [hm] <;> rfl
  · rw [value?_of_read? hmark hread, String.ofList_toList]

/-- A line that gives a key a truth value. -/
theorem line?_boolean (h : IsBareKey name) (b : Bool) (rest : List Char) :
    line? (name.toList ++ ' ' :: '=' :: ' ' ::
        ((if b then "true" else "false").toList ++ '\n' :: rest)) =
      some (some (.assignment ⟨[], name, .boolean b⟩), rest) := by
  cases b with
  | false => exact line?_assignment h rfl fun _ => rfl
  | true => exact line?_assignment h rfl fun _ => rfl

/-! ## Documents -/

theorem lines?_cons {cs : List Char} {line : Option Line} {ls : List Line} {fuel : Nat}
    (hline : line? cs = some (line, rest)) (hrest : lines? fuel rest = some ls) :
    lines? (fuel + 1) cs = some (line.toList ++ ls) := by
  cases cs with
  | nil =>
      cases hline
      cases fuel <;> exact hrest
  | cons c cs =>
      rw [lines?, hline]
      simp only [Option.bind_eq_bind, Option.bind_some, hrest]
      · rfl
      · nofun

end TableStore.Toml

namespace TableStore.Config

theorem toList_print (c : Config) :
    c.print.toList =
      '[' :: ("storage".toList ++ ']' :: '\n' ::
      ("metadata_file".toList ++ ' ' :: '=' :: ' ' ::
        (Toml.Text.write c.layout.metadataFile.text ++ '\n' ::
      ("data_dir".toList ++ ' ' :: '=' :: ' ' ::
        (Toml.Text.write c.layout.dataDirectory.text ++ '\n' :: '\n' ::
      '[' :: ("cache".toList ++ ']' :: '\n' ::
      ("enabled".toList ++ ' ' :: '=' :: ' ' ::
        ((if c.cacheEnabled then "true" else "false").toList ++ ['\n'])))))))) := by
  have hmetadata : "[storage]\nmetadata_file = ".toList =
      '[' :: ("storage".toList ++ ']' :: '\n' :: ("metadata_file".toList ++ [' ', '=', ' '])) := by
    decide
  have hdata : "\ndata_dir = ".toList = '\n' :: ("data_dir".toList ++ [' ', '=', ' ']) := by decide
  have henabled : "\n\n[cache]\nenabled = ".toList = '\n' :: '\n' ::
      '[' :: ("cache".toList ++ ']' :: '\n' :: ("enabled".toList ++ [' ', '=', ' '])) := by decide
  have hbreak : "\n".toList = ['\n'] := by decide
  have hpieces (a b c d e : String) (v w : List Char) :
      (a ++ String.ofList v ++ b ++ String.ofList w ++ c ++ d ++ e).toList =
        a.toList ++ (v ++ (b.toList ++ (w ++ (c.toList ++ (d.toList ++ e.toList))))) := by
    simp only [String.toList_append, String.toList_ofList, List.append_assoc]
  refine (hpieces ..).trans ?_
  rw [hmetadata, hdata, henabled, hbreak]
  -- Rewriting would spell out the names, if they were not taken for arbitrary ones.
  generalize "storage".toList = storage
  generalize "metadata_file".toList = metadataFile
  generalize "data_dir".toList = dataDirectory
  generalize "cache".toList = cache
  generalize "enabled".toList = enabled
  simp only [List.append_assoc, List.cons_append, List.nil_append]

/-- What the lines of a printed configuration say. -/
def lines (c : Config) : List Toml.Line :=
  [.header ⟨false, [], "storage"⟩,
    .assignment ⟨[], "metadata_file", .text c.layout.metadataFile.text⟩,
    .assignment ⟨[], "data_dir", .text c.layout.dataDirectory.text⟩,
    .header ⟨false, [], "cache"⟩,
    .assignment ⟨[], "enabled", .boolean c.cacheEnabled⟩]

theorem lines?_print (c : Config) (fuel : Nat) :
    Toml.lines? (fuel + 6) c.print.toList = some c.lines := by
  rw [toList_print]
  refine Toml.lines?_cons (Toml.line?_header ⟨rfl, rfl⟩ _) ?_
  refine Toml.lines?_cons (Toml.line?_text ⟨rfl, rfl⟩ _ _) ?_
  refine Toml.lines?_cons (Toml.line?_text ⟨rfl, rfl⟩ _ _) ?_
  refine Toml.lines?_cons (Toml.line?_blank _) ?_
  refine Toml.lines?_cons (Toml.line?_header ⟨rfl, rfl⟩ _) ?_
  refine Toml.lines?_cons (Toml.line?_boolean ⟨rfl, rfl⟩ _ []) ?_
  cases fuel <;> rfl

/-- The lines give the configuration back. -/
theorem ofToml?_lines (c : Config) : Toml.ofLines? c.lines >>= ofToml? = some c := rfl

theorem parse?_print (c : Config) : parse? c.print.toList = some c := by
  obtain ⟨front, key, rest, hprint⟩ : ∃ front key rest, c.print.toList =
      '[' :: (front ++ ']' :: '\n' :: (key ++ ' ' :: '=' :: rest)) := ⟨_, _, _, c.toList_print⟩
  have hmark : Toml.dropOrderMark c.print.toList = c.print.toList := by
    rw [hprint]
    rfl
  have hlength : 5 ≤ c.print.toList.length := by
    rw [hprint]
    simp only [List.length_cons, List.length_append]
    omega
  obtain ⟨fuel, hfuel⟩ := Nat.exists_eq_add_of_le' hlength
  rw [parse?, Toml.parse?, hmark, hfuel, lines?_print]
  exact c.ofToml?_lines

/-! ## Files -/

theorem fromUTF8?_toUTF8 (s : String) : String.fromUTF8? s.toUTF8 = some s :=
  dif_pos s.isValidUTF8

theorem read_of_save {c : Config} {file : Path} {fs fs' : FileSystem}
    (h : c.save file fs = .ok () fs') : fs'.read file = .ok c.print.toUTF8 := by
  rw [save] at h
  split at h
  · cases h
  · split at h
    · cases h
    · next hwrite =>
        cases h
        exact FileSystem.read_of_write hwrite

/-- Whatever is wrong with a configuration, it is an error in the configuration. -/
theorem invalidConfig_of_validate {c : Config} {e : Error} (h : c.validate = .error e) :
    ∃ fault, e = .invalidConfig fault := by
  rw [validate] at h
  split_ifs at h <;> cases h <;> exact ⟨_, rfl⟩

/-- A configuration that has been saved is loaded from its file if it is valid, and otherwise the
load fails with what is wrong with it. -/
theorem load_of_save {c : Config} {file : Path} {fs fs' : FileSystem}
    (h : c.save file fs = .ok () fs') :
    (c.validate = .ok () → load file fs' = .ok c) ∧
    ∀ e, c.validate = .error e → (∃ fault, e = .invalidConfig fault) ∧ load file fs' = .error e := by
  have hload : load file fs' = c.validate.map fun _ => c := by
    simp only [load, read_of_save h, fromUTF8?_toUTF8, parse?_print]
  refine ⟨fun hvalid => ?_, fun e he => ⟨invalidConfig_of_validate he, ?_⟩⟩
  · rw [hload, hvalid]
    rfl
  · rw [hload, he]
    rfl

/-- A path that needs tripled marks and escapes at once; and a directory of tables that has the
metadata file in it, where it is spelled in another way. -/
theorem load_of_save_control :
    (∃ c : Config, c.layout.dataDirectory.text = "\x00\n'''\"\"\"\\" ∧
      ∃ fs, c.save ⟨"conf/db.toml"⟩ .empty = .ok () fs ∧ load ⟨"conf/db.toml"⟩ fs = .ok c) ∧
    ∃ c : Config, c.layout = ⟨⟨"data//m"⟩, ⟨"data/."⟩⟩ ∧
      ∃ fs, c.save ⟨"db.toml"⟩ .empty = .ok () fs ∧
        load ⟨"db.toml"⟩ fs = .error (.invalidConfig .metadataAmongTables) := by
  constructor
  · have hsave : save ⟨⟨⟨"m"⟩, ⟨"\x00\n'''\"\"\"\\"⟩⟩, false⟩ ⟨"conf/db.toml"⟩ .empty =
        .ok () ((FileSystem.empty.set ["conf", "work"] .directory).set ["db.toml", "conf", "work"]
          (.file (print ⟨⟨⟨"m"⟩, ⟨"\x00\n'''\"\"\"\\"⟩⟩, false⟩).toUTF8)) := rfl
    exact ⟨_, rfl, _, hsave, (load_of_save hsave).1 rfl⟩
  · have hsave : save ⟨⟨⟨"data//m"⟩, ⟨"data/."⟩⟩, true⟩ ⟨"db.toml"⟩ .empty =
        .ok () (FileSystem.empty.set ["db.toml", "work"]
          (.file (print ⟨⟨⟨"data//m"⟩, ⟨"data/."⟩⟩, true⟩).toUTF8)) := rfl
    exact ⟨_, rfl, _, hsave, ((load_of_save hsave).2 _ rfl).2⟩

end TableStore.Config
