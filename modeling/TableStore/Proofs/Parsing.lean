import TableStore.Proofs.Lexing

/-!
The value of a text. A reader has always spent the tokens of what it holds: of the arrays and
objects that are open up to the value being read, and of what it has of that value. So a text is
read as a value exactly if it is a text of that value.
-/

namespace TableStore.Json

/-! ## Tokens from the front -/

/-- Items that have a comma behind them. -/
def doneItems (items : List Json) : List Token := items.flatMap fun j => j.tokens ++ [.comma]

/-- A member up to its value. -/
def keyTokens (key : Option String) : List Token := [.text key, .colon]

/-- Members that have a comma behind them. -/
def doneMembers (members : List (Option String × Json)) : List Token :=
  members.flatMap fun m => keyTokens m.1 ++ m.2.tokens ++ [.comma]

theorem doneItems_append (items items' : List Json) :
    doneItems (items ++ items') = doneItems items ++ doneItems items' := List.flatMap_append

theorem doneItems_singleton (j : Json) : doneItems [j] = j.tokens ++ [.comma] :=
  List.flatMap_singleton ..

theorem doneMembers_append (members members' : List (Option String × Json)) :
    doneMembers (members ++ members') = doneMembers members ++ doneMembers members' :=
  List.flatMap_append

theorem doneMembers_singleton (m : Option String × Json) :
    doneMembers [m] = keyTokens m.1 ++ m.2.tokens ++ [.comma] := List.flatMap_singleton ..

theorem tokens_moreItems (i j : Json) (items : List Json) :
    i.tokens ++ moreItems (items ++ [j]) = doneItems (i :: items) ++ j.tokens := by
  induction items generalizing i with
  | nil => simp [moreItems, doneItems]
  | cons i' items ih =>
      rw [List.cons_append, moreItems, ih]
      simp [doneItems]

theorem tokens_array_snoc (items : List Json) (j : Json) :
    (array (items ++ [j])).tokens =
      .openBracket :: (doneItems items ++ j.tokens) ++ [.closeBracket] := by
  cases items with
  | nil => simp [tokens, moreItems, doneItems]
  | cons i items => rw [List.cons_append, tokens, tokens_moreItems]

theorem tokens_moreMembers (m n : Option String × Json) (members : List (Option String × Json)) :
    keyTokens m.1 ++ m.2.tokens ++ moreMembers (members ++ [n]) =
      doneMembers (m :: members) ++ (keyTokens n.1 ++ n.2.tokens) := by
  induction members generalizing m with
  | nil => simp [moreMembers, doneMembers, keyTokens]
  | cons m' members ih =>
      have h := ih m'
      simp only [keyTokens, List.cons_append, List.nil_append] at h
      rw [List.cons_append, moreMembers, h]
      simp [doneMembers, keyTokens]

theorem tokens_object_snoc (members : List (Option String × Json)) (key : Option String)
    (j : Json) : (object (members ++ [(key, j)])).tokens =
      .openBrace :: (doneMembers members ++ (keyTokens key ++ j.tokens)) ++ [.closeBrace] := by
  cases members with
  | nil => simp [tokens, moreMembers, doneMembers, keyTokens]
  | cons m members =>
      have h := tokens_moreMembers m (key, j) members
      rw [← h]
      simp [tokens, keyTokens]

/-! ## Readers -/

/-- What has been spent on an open array or object, up to the value being read. -/
def Frame.spent : Frame → List Token
  | .array items => .openBracket :: doneItems items.reverse
  | .object members key => .openBrace :: (doneMembers members.reverse ++ keyTokens key)

def Expecting.spent : Expecting → List Token
  | .value => []
  | .firstItem => [.openBracket]
  | .firstKey => [.openBrace]
  | .key members => .openBrace :: doneMembers members.reverse
  | .colon members name => .openBrace :: (doneMembers members.reverse ++ [.text name])
  | .next complete => complete.tokens

namespace Reader

variable {r r' : Reader} {stack : List Frame} {frame : Frame} {t : Token} {ts : List Token}

/-- What has been spent on all that is open, from the outside in. -/
def stackSpent (stack : List Frame) : List Token := stack.reverse.flatMap Frame.spent

/-- The tokens that lead to a reader. -/
def spent (r : Reader) : List Token := stackSpent r.stack ++ r.expecting.spent

theorem stackSpent_cons : stackSpent (frame :: stack) = stackSpent stack ++ frame.spent := by
  simp [stackSpent]

theorem spent_beginValue? (h : beginValue? stack t = some r) :
    r.spent = stackSpent stack ++ [t] := by
  cases t with
  | null | boolean _ | number _ | text _ | openBracket | openBrace =>
      cases h
      simp [spent, Expecting.spent, tokens]
  | closeBracket | closeBrace | comma | colon => cases h

theorem spent_proceed? {j : Json} (h : proceed? j stack t = some r) :
    r.spent = stackSpent stack ++ j.tokens ++ [t] := by
  unfold proceed? at h
  split at h
  · cases h
    simp [spent, stackSpent_cons, Frame.spent, Expecting.spent, doneItems_append,
      doneItems_singleton]
  · cases h
    simp [spent, stackSpent_cons, Frame.spent, Expecting.spent, tokens_array_snoc]
  · cases h
    simp [spent, stackSpent_cons, Frame.spent, Expecting.spent, doneMembers_append,
      doneMembers_singleton]
  · cases h
    simp [spent, stackSpent_cons, Frame.spent, Expecting.spent, tokens_object_snoc]
  · cases h

theorem step_firstItem (ht : t ≠ .closeBracket) :
    step ⟨stack, .firstItem⟩ t = beginValue? (.array [] :: stack) t := by
  cases t with
  | closeBracket => exact absurd rfl ht
  | null | boolean _ | number _ | text _ | openBracket | openBrace | closeBrace | comma | colon =>
      rfl

/-- Every step spends the token it reads. -/
theorem spent_step (h : r.step t = some r') : r'.spent = r.spent ++ [t] := by
  obtain ⟨stack, expecting⟩ := r
  cases expecting with
  | value =>
      rw [spent_beginValue? h]
      simp [spent, Expecting.spent]
  | firstItem =>
      by_cases ht : t = .closeBracket
      · subst ht
        cases h
        simp [spent, Expecting.spent, tokens]
      · rw [step_firstItem ht] at h
        rw [spent_beginValue? h, stackSpent_cons]
        simp [spent, Expecting.spent, Frame.spent, doneItems]
  | firstKey =>
      cases t with
      | closeBrace =>
          cases h
          simp [spent, Expecting.spent, tokens]
      | text key =>
          cases h
          simp [spent, Expecting.spent, doneMembers]
      | null | boolean _ | number _ | openBracket | openBrace | closeBracket | comma | colon =>
          cases h
  | key members =>
      cases t with
      | text key =>
          cases h
          simp [spent, Expecting.spent]
      | null | boolean _ | number _ | openBracket | openBrace | closeBracket | closeBrace | comma |
        colon => cases h
  | colon members name =>
      cases t with
      | colon =>
          cases h
          simp [spent, Expecting.spent, stackSpent_cons, Frame.spent, keyTokens]
      | null | boolean _ | number _ | text _ | openBracket | openBrace | closeBracket | closeBrace |
        comma => cases h
  | next complete =>
      rw [spent_proceed? h]
      simp [spent, Expecting.spent]

theorem spent_foldlM (h : ts.foldlM step r = some r') : r'.spent = r.spent ++ ts := by
  induction ts generalizing r with
  | nil =>
      cases h
      rw [List.append_nil]
  | cons t ts ih =>
      rw [List.foldlM_cons] at h
      obtain ⟨r₁, hr₁, hr'⟩ := Option.bind_eq_some_iff.mp h
      rw [ih hr', spent_step hr₁, List.append_assoc, List.singleton_append]

end Reader

/-- Tokens are read as a value exactly if they are its tokens. -/
theorem ofTokens?_eq_some {ts : List Token} {j : Json} : ofTokens? ts = some j ↔ ts = j.tokens := by
  constructor
  · intro h
    obtain ⟨r, hr, hf⟩ := Option.bind_eq_some_iff.mp h
    have hspent := Reader.spent_foldlM hr
    unfold Reader.finish? at hf
    split at hf
    · cases hf
      exact hspent.symm
    · cases hf
  · rintro rfl
    exact ofTokens?_tokens j

/-- A text is read as a value exactly if it is a text of that value. -/
theorem ofText?_eq_some {text : String} {j : Json} :
    ofText? text = some j ↔ text.toList ∈ j.texts := by
  constructor
  · intro h
    obtain ⟨ts, hts, hj⟩ := Option.bind_eq_some_iff.mp h
    have := Token.mem_spaced_of_scan? hts
    rwa [ofTokens?_eq_some.mp hj] at this
  · intro h
    rw [ofText?, parse?, Token.scan?_of_mem_texts h]
    exact ofTokens?_tokens j

end TableStore.Json
