import TableStore.Text.Utf8

/-!
Bytes that all belong to characters are the encoding of a text.
-/

namespace TableStore.Text

variable {bytes : ByteArray} {start : Nat} {c : Char}

/-- A character that is found somewhere is encoded there. -/
theorem extract_of_utf8DecodeChar? (h : bytes.utf8DecodeChar? start = some c) :
    bytes.extract start bytes.size =
      [c].utf8Encode ++ bytes.extract (start + c.utf8Size) bytes.size := by
  have hstart := ByteArray.lt_size_of_isSome_utf8DecodeChar? (Option.isSome_of_eq_some h)
  rw [ByteArray.utf8DecodeChar?_eq_utf8DecodeChar?_extract] at h
  obtain ⟨rest, hrest⟩ := ByteArray.exists_of_utf8DecodeChar?_eq_some h
  rw [← List.utf8Encode_singleton] at hrest
  have hc : [c].utf8Encode.size = c.utf8Size := by simp [List.utf8Encode_singleton]
  have hsize : bytes.size - start = c.utf8Size + rest.size := by
    rw [← hc, ← ByteArray.size_append, ← hrest, ByteArray.size_extract, Nat.min_self]
  have hend : min (start + (c.utf8Size + rest.size)) bytes.size = bytes.size := by omega
  have hdrop : bytes.extract (start + c.utf8Size) bytes.size = rest :=
    calc bytes.extract (start + c.utf8Size) bytes.size
      _ = (bytes.extract start bytes.size).extract c.utf8Size (c.utf8Size + rest.size) := by
        rw [ByteArray.extract_extract, hend]
      _ = rest := by
        rw [hrest, ByteArray.extract_append_eq_right hc.symm (by rw [hc])]
  rw [hdrop, hrest]

theorem readUtf8From_eq (bytes : ByteArray) (start : Nat) (read : List (Option Char)) :
    ∃ cs : List (Option Char), readUtf8From bytes start read = cs.reverse ++ read ∧
      ∀ chars : List Char, cs = chars.map some →
        bytes.extract start bytes.size = chars.utf8Encode := by
  induction start, read using readUtf8From.induct bytes with
  | case1 start read hstart c hc ih =>
      obtain ⟨cs, hcs, hall⟩ := ih
      rw [readUtf8From, if_pos hstart, hc]
      refine ⟨some c :: cs, by rw [List.reverse_cons, List.append_assoc]; exact hcs, ?_⟩
      intro chars hchars
      obtain ⟨_, chars, rfl, hhead, hrest⟩ := List.map_eq_cons_iff.mp hchars.symm
      cases hhead
      rw [extract_of_utf8DecodeChar? hc, hall chars hrest.symm]
      exact List.utf8Encode_cons.symm
  | case2 start read hstart hc ih =>
      obtain ⟨cs, hcs, -⟩ := ih
      rw [readUtf8From, if_pos hstart, hc]
      refine ⟨none :: cs, by rw [List.reverse_cons, List.append_assoc]; exact hcs, ?_⟩
      intro chars hchars
      obtain ⟨_, _, _, hhead, _⟩ := List.map_eq_cons_iff.mp hchars.symm
      cases hhead
  | case3 start read hstart =>
      rw [readUtf8From, if_neg hstart]
      refine ⟨[], rfl, ?_⟩
      intro chars hchars
      cases List.map_eq_nil_iff.mp hchars.symm
      exact ByteArray.extract_eq_empty_iff.mpr (by omega)

/-- Bytes that all belong to characters are the encoding of those. -/
theorem eq_toUTF8_of_readUtf8 {text : String} (h : readUtf8 bytes = characters text) :
    bytes = text.toUTF8 := by
  obtain ⟨cs, hcs, hall⟩ := readUtf8From_eq bytes 0 []
  rw [List.append_nil] at hcs
  rw [readUtf8, hcs, List.reverse_reverse] at h
  have hbytes := hall text.toList h
  rwa [ByteArray.extract_zero_size, String.utf8Encode_toList] at hbytes

theorem eq_characters {cs : List (Option Char)} (h : none ∉ cs) :
    ∃ text, cs = characters text := by
  induction cs with
  | nil => exact ⟨"", rfl⟩
  | cons c cs ih =>
      obtain ⟨text, rfl⟩ := ih (List.not_mem_of_not_mem_cons h)
      cases c with
      | none => exact absurd List.mem_cons_self h
      | some c =>
          refine ⟨String.ofList (c :: text.toList), ?_⟩
          rw [characters, characters, String.toList_ofList, List.map_cons]

end TableStore.Text
