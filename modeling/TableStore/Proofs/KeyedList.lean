import Mathlib.Data.List.Induction
import Mathlib.Data.List.Nodup
import TableStore.KeyedList

/-!
What insertions do to the keys and the values of a list of pairs with distinct keys.
-/

namespace TableStore.KeyedList

variable {κ ν : Type} [DecidableEq κ] {m : KeyedList κ ν} {key k : κ} {value : ν}
  {pairs : List (κ × ν)}

theorem putIn_of_not_mem {l : List (κ × ν)} (h : key ∉ l.map Prod.fst) :
    putIn key value l = l ++ [(key, value)] := by
  induction l with
  | nil => rfl
  | cons p l ih =>
      rw [List.map_cons, List.mem_cons, not_or] at h
      rw [putIn, if_neg (Ne.symm h.1), ih h.2, List.cons_append]

theorem keys_putIn_of_mem {l : List (κ × ν)} (h : key ∈ l.map Prod.fst) :
    (putIn key value l).map Prod.fst = l.map Prod.fst := by
  induction l with
  | nil => cases h
  | cons p l ih =>
      rw [putIn]
      split
      · next hk => simp only [List.map_cons, hk]
      · next hk =>
          obtain h | h := List.mem_cons.mp h
          · exact absurd h.symm hk
          · simp only [List.map_cons, ih h]

theorem lookupIn_ne_none {l : List (κ × ν)} (h : key ∈ l.map Prod.fst) : lookupIn key l ≠ none := by
  induction l with
  | nil => cases h
  | cons p l ih =>
      rw [lookupIn]
      split
      · exact Option.some_ne_none _
      · next hp => exact ih ((List.mem_cons.mp h).resolve_left (Ne.symm hp))

theorem get?_eq_none_iff : m.get? k = none ↔ k ∉ m.keys :=
  ⟨fun h hk => lookupIn_ne_none hk h, lookupIn_eq_none⟩

theorem lookupIn_of_mem {l : List (κ × ν)} (hd : (l.map Prod.fst).Nodup) (h : (k, value) ∈ l) :
    lookupIn k l = some value := by
  induction l with
  | nil => cases h
  | cons p l ih =>
      obtain ⟨hp, hd⟩ := List.nodup_cons.mp hd
      obtain rfl | h := List.mem_cons.mp h
      · rw [lookupIn, if_pos rfl]
      · have hne : p.1 ≠ k := fun he => hp (he ▸ List.mem_map_of_mem h)
        rw [lookupIn, if_neg hne, ih hd h]

theorem mem_of_lookupIn {l : List (κ × ν)} (h : lookupIn k l = some value) : (k, value) ∈ l := by
  induction l with
  | nil => cases h
  | cons p l ih =>
      rw [lookupIn] at h
      split at h
      · next hk =>
          cases h
          exact hk ▸ List.mem_cons_self
      · exact List.mem_cons_of_mem _ (ih h)

theorem get?_of_mem_entries (h : (k, value) ∈ m.entries) : m.get? k = some value :=
  lookupIn_of_mem m.nodup h

theorem entries_insert_of_not_mem (h : key ∉ m.keys) :
    (m.insert key value).entries = m.entries ++ [(key, value)] :=
  putIn_of_not_mem h

theorem keys_insert_of_not_mem (h : key ∉ m.keys) :
    (m.insert key value).keys = m.keys ++ [key] := by
  rw [keys, entries_insert_of_not_mem h, List.map_append]
  rfl

theorem keys_insert_of_mem (h : key ∈ m.keys) : (m.insert key value).keys = m.keys :=
  keys_putIn_of_mem h

theorem mem_keys_insert : k ∈ (m.insert key value).keys ↔ k = key ∨ k ∈ m.keys :=
  mem_keys_putIn key k value m.entries

theorem mem_keys_of_mem_erase (h : k ∈ (m.erase key).keys) : k ∈ m.keys :=
  mem_keys_of_mem_dropIn h

theorem dropIn_eq_filter {l : List (κ × ν)} (hd : (l.map Prod.fst).Nodup) :
    dropIn key l = l.filter (·.1 ≠ key) := by
  induction l with
  | nil => rfl
  | cons p l ih =>
      obtain ⟨hp, hd⟩ := List.nodup_cons.mp hd
      rw [dropIn]
      split
      · next hk =>
          subst hk
          rw [List.filter_cons_of_neg (by simp), List.filter_eq_self.mpr]
          intro q hq
          have hne : q.1 ≠ p.1 := fun he => hp (he ▸ List.mem_map_of_mem hq)
          exact decide_eq_true hne
      · next hk => rw [List.filter_cons_of_pos (by simpa using hk), ih hd]

/-- Removing a key leaves the other pairs in their order. -/
theorem entries_erase : (m.erase key).entries = m.entries.filter (·.1 ≠ key) :=
  dropIn_eq_filter m.nodup

theorem insertAll_cons (p : κ × ν) :
    m.insertAll (p :: pairs) = (m.insert p.1 p.2).insertAll pairs := rfl

/-- Whatever is inserted, each new key goes to where it first comes. -/
theorem keys_insertAll_eraseDups (m : KeyedList κ ν) (pairs : List (κ × ν)) :
    (m.insertAll pairs).keys =
      m.keys ++ ((pairs.map Prod.fst).filter (· ∉ m.keys)).eraseDups := by
  induction pairs generalizing m with
  | nil => exact (List.append_nil _).symm
  | cons p pairs ih =>
      rw [insertAll_cons, ih, List.map_cons]
      by_cases hm : p.1 ∈ m.keys
      · rw [keys_insert_of_mem hm, List.filter_cons_of_neg (by simpa using hm)]
      · have hrest : (pairs.map Prod.fst).filter (· ∉ m.keys ++ [p.1]) =
            ((pairs.map Prod.fst).filter (· ∉ m.keys)).filter fun k => !(k == p.1) := by
          rw [List.filter_filter]
          refine List.filter_congr fun k _ => ?_
          rw [Bool.eq_iff_iff]
          simp [not_or, and_comm]
        rw [keys_insert_of_not_mem hm, List.filter_cons_of_pos (by simpa using hm),
          List.eraseDups_cons, hrest, List.append_assoc, List.singleton_append]

/-- The last value inserted under a key is the one that is found. -/
theorem get?_insertAll (m : KeyedList κ ν) (pairs : List (κ × ν)) (k : κ) :
    (m.insertAll pairs).get? k = (lookupIn k pairs.reverse).or (m.get? k) := by
  induction pairs using List.reverseRecOn with
  | nil => rfl
  | append_singleton pairs p ih =>
      have hlast : m.insertAll (pairs ++ [p]) = (m.insertAll pairs).insert p.1 p.2 :=
        List.foldl_append
      rw [hlast, get?_insert, ih, List.reverse_append, List.reverse_singleton,
        List.singleton_append, lookupIn]
      by_cases hk : k = p.1
      · rw [if_pos hk, if_pos hk.symm, Option.some_or]
      · rw [if_neg hk, if_neg (Ne.symm hk)]

/-- Insertions under keys that are there change none of them. -/
theorem keys_insertAll_of_mem (h : ∀ p ∈ pairs, p.1 ∈ m.keys) :
    (m.insertAll pairs).keys = m.keys := by
  have hnew : (pairs.map Prod.fst).filter (· ∉ m.keys) = [] := by
    simpa [List.filter_eq_nil_iff] using fun k v hp => h (k, v) hp
  rw [keys_insertAll_eraseDups, hnew, List.eraseDups_nil, List.append_nil]

theorem eraseDups_of_nodup {keys : List κ} (hd : keys.Nodup) : keys.eraseDups = keys := by
  induction keys with
  | nil => rfl
  | cons k keys ih =>
      obtain ⟨hk, hd⟩ := List.nodup_cons.mp hd
      have hrest : keys.filter (fun other => !(other == k)) = keys := by
        refine List.filter_eq_self.mpr fun other ho => ?_
        have hne : other ≠ k := fun he => hk (he ▸ ho)
        simpa using hne
      rw [List.eraseDups_cons, hrest, ih hd]

/-- Insertions leave the keys that are there in their places and add the new ones in order. -/
theorem keys_insertAll (hd : (pairs.map Prod.fst).Nodup) :
    (m.insertAll pairs).keys = m.keys ++ (pairs.map Prod.fst).filter (· ∉ m.keys) := by
  rw [keys_insertAll_eraseDups, eraseDups_of_nodup (hd.filter _)]

/-- Insertions under new and distinct keys add their pairs at the end. -/
theorem entries_insertAll_of_not_mem (h : ∀ p ∈ pairs, p.1 ∉ m.keys)
    (hd : (pairs.map Prod.fst).Nodup) : (m.insertAll pairs).entries = m.entries ++ pairs := by
  induction pairs generalizing m with
  | nil => rw [List.append_nil]; rfl
  | cons p pairs ih =>
      have hp := List.nodup_cons.mp hd
      have hm := h p List.mem_cons_self
      rw [insertAll_cons, ih _ hp.2, entries_insert_of_not_mem hm, List.append_assoc]
      · rfl
      · intro q hq hk
        obtain hk | hk := mem_keys_insert.mp hk
        · exact hp.1 (hk ▸ List.mem_map_of_mem hq)
        · exact h q (List.mem_cons_of_mem _ hq) hk

/-- A list with distinct keys is what inserting its pairs makes. -/
theorem ofList_entries : ofList m.entries = m :=
  ext (entries_insertAll_of_not_mem (by simp [keys, empty]) m.nodup)

theorem get?_insertAll_of_not_mem (h : k ∉ pairs.map Prod.fst) :
    (m.insertAll pairs).get? k = m.get? k := by
  rw [get?_insertAll, lookupIn_eq_none (by simpa using h), Option.none_or]

/-- What is found under a key that has been inserted is a value inserted under it. -/
theorem get?_insertAll_of_mem (h : k ∈ pairs.map Prod.fst) :
    ∃ v, (k, v) ∈ pairs ∧ (m.insertAll pairs).get? k = some v := by
  have hk : k ∈ pairs.reverse.map Prod.fst := by simpa using h
  obtain ⟨v, hv⟩ := Option.ne_none_iff_exists'.mp (lookupIn_ne_none hk)
  exact ⟨v, List.mem_reverse.mp (mem_of_lookupIn hv), by rw [get?_insertAll, hv, Option.some_or]⟩

theorem get?_insertAll_of_pair_mem {p : κ × ν} (hd : (pairs.map Prod.fst).Nodup) (h : p ∈ pairs) :
    (m.insertAll pairs).get? p.1 = some p.2 := by
  obtain ⟨v, hv, hg⟩ := get?_insertAll_of_mem (m := m) (List.mem_map_of_mem h)
  have he : (p.1, v) = p := List.inj_on_of_nodup_map hd hv h rfl
  rw [hg, ← he]

theorem eq_of_lookupIn_eq {l l' : List (κ × ν)} (hd : (l.map Prod.fst).Nodup)
    (hk : l.map Prod.fst = l'.map Prod.fst) (hv : ∀ k, lookupIn k l = lookupIn k l') : l = l' := by
  induction l generalizing l' with
  | nil => exact (List.map_eq_nil_iff.mp hk.symm).symm
  | cons p l ih =>
      cases l' with
      | nil => cases hk
      | cons q l' =>
          obtain ⟨hp, hd⟩ := List.nodup_cons.mp hd
          obtain ⟨h1, hk⟩ := List.cons.inj hk
          have h2 : p.2 = q.2 := by simpa [lookupIn, h1] using hv p.1
          rw [Prod.ext h1 h2, ih hd hk fun k => ?_]
          by_cases he : p.1 = k
          · subst he
            rw [lookupIn_eq_none hp, lookupIn_eq_none (hk ▸ hp)]
          · simpa [lookupIn, he, ← h1] using hv k

/-- The order of the keys and the value under each determine a list. -/
theorem ext_get? {n : KeyedList κ ν} (hk : m.keys = n.keys) (hv : ∀ k, m.get? k = n.get? k) :
    m = n :=
  ext (eq_of_lookupIn_eq m.nodup hk hv)

end TableStore.KeyedList
