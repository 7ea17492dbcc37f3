import TableStore.Proofs.Counting
import TableStore.Proofs.Simulation

/-!
A cache against its history. One that retains values answers for a key with what the first load
of the key since the last invalidation gave; one that does not has nothing to answer with, and
every value is loaded. The counters are counts of the calls and of their answers.
-/

namespace TableStore.ScanCache

variable {ε σ ν : Type}

/-! ## Calls -/

/-- A call to a cache. A load is an action of the caller, and may change the caller's state. -/
inductive Call (ε σ ν : Type) where
  | get (key : Fingerprint)
  | getOrLoad (key : Fingerprint) (load : EStateM ε σ ν)
  | invalidate
  | contains (key : Fingerprint)

inductive Answer (ν : Type) where
  | found (value : Option ν)
  | loaded (value : ν)
  | present (b : Bool)
  | done

/-- What happened to a cache as far as its answers depend on it. -/
inductive Event (ν : Type) where
  /-- A load of the key succeeded with the value. -/
  | loaded (key : Fingerprint) (value : ν)
  | invalidated

/-- The value of the first load of a key since the last invalidation, in a history that has the
latest event in front. -/
def firstLoad (key : Fingerprint) : List (Event ν) → Option ν
  | [] => none
  | .invalidated :: _ => none
  | .loaded other value :: earlier =>
    (firstLoad key earlier).or (if other = key then some value else none)

/-- What a cache knows of a key after a history. -/
def known (retains : Bool) (key : Fingerprint) (history : List (Event ν)) : Option ν :=
  if retains then firstLoad key history else none

namespace Call

def serve : Call ε σ ν → EStateM ε (ScanCache ν × σ) (Answer ν)
  | get key => fun (c, s) => .ok (.found (c.get key).1) ((c.get key).2, s)
  | getOrLoad key load => return .loaded (← ScanCache.getOrLoad key load)
  | invalidate => fun (c, s) => .ok .done (c.invalidate, s)
  | contains key => fun (c, s) => .ok (.present (c.contains key)) (c, s)

/-- What a call does to the history and to the caller's state: a load is run exactly when
nothing is known of its key. -/
def expect (retains : Bool) : Call ε σ ν → EStateM ε (List (Event ν) × σ) (Answer ν)
  | get key => fun (h, s) => .ok (.found (known retains key h)) (h, s)
  | getOrLoad key load => fun (h, s) =>
    match known retains key h with
    | some value => .ok (.loaded value) (h, s)
    | none =>
      match load s with
      | .ok value s => .ok (.loaded value) (.loaded key value :: h, s)
      | .error e s => .error e (h, s)
  | invalidate => fun (h, s) => .ok .done (.invalidated :: h, s)
  | contains key => fun (h, s) => .ok (.present (known retains key h).isSome) (h, s)

end Call

theorem finalState_serve_getOrLoad (key : Fingerprint) (load : EStateM ε σ ν)
    (w : ScanCache ν × σ) :
    finalState ((Call.getOrLoad key load).serve w) = finalState (getOrLoad key load w) :=
  finalState_bind_pure Answer.loaded

/-! ## Answers -/

/-- A cache holds what its history says, and the callers' states are the same. -/
structure Recalls (retains : Bool) (w : ScanCache ν × σ) (x : List (Event ν) × σ) : Prop where
  retention : w.1.retains = retains
  entries : ∀ key, w.1.peek key = known retains key x.1
  state : x.2 = w.2

variable {retains : Bool} {c : ScanCache ν} {h : List (Event ν)} {s : σ} {key : Fingerprint}
  {value : ν}

theorem getOrLoad_of_hit {load : EStateM ε σ ν} (hp : c.peek key = some value) :
    getOrLoad key load (c, s) = .ok value ((c.get key).2, s) := by
  simp only [getOrLoad, get, hp]

theorem getOrLoad_of_miss {load : EStateM ε σ ν} (hp : c.peek key = none) :
    getOrLoad key load (c, s) =
      match load s with
      | .ok value s => .ok value ((c.get key).2.keep key value, s)
      | .error e s => .error e ((c.get key).2, s) := by
  simp only [getOrLoad, get, hp]
  cases load s <;> rfl

theorem recalls_create (retains : Bool) (s : σ) :
    Recalls retains ((create retains : ScanCache ν), s) ([], s) :=
  ⟨rfl, fun key => by cases retains <;> rfl, rfl⟩

theorem Recalls.get (hr : Recalls retains (c, s) (h, s)) (key : Fingerprint) :
    Recalls retains ((c.get key).2, s) (h, s) := ⟨hr.retention, hr.entries, rfl⟩

theorem recalls_invalidate (hr : c.retains = retains) :
    Recalls retains (c.invalidate, s) (.invalidated :: h, s) :=
  ⟨hr, fun key => by cases retains <;> rfl, rfl⟩

/-- A value that was not known is kept, unless nothing is. -/
theorem Recalls.keep {s' : σ} (hr : Recalls retains (c, s) (h, s)) (hp : c.peek key = none)
    (value : ν) : Recalls retains (c.keep key value, s') (.loaded key value :: h, s') := by
  have hretains : c.retains = retains := hr.retention
  refine ⟨?_, fun other => ?_, rfl⟩
  · simp only [ScanCache.keep]
    split <;> exact hretains
  · have hother := hr.entries other
    cases retains with
    | false =>
        simpa only [ScanCache.keep, hretains, known, Bool.false_eq_true, ite_false] using hother
    | true =>
        -- Nothing was known of the key, so that this load is the first one of it.
        have hkey := hr.entries key
        simp only [hp, known, ite_true] at hkey hother
        simp only [ScanCache.keep, hretains, ite_true, peek, KeyedList.get?_insert, known,
          firstLoad]
        by_cases he : other = key
        · rw [if_pos he, he, ← hkey, if_pos rfl, Option.none_or]
        · rw [if_neg he, if_neg (Ne.symm he), Option.or_none]
          exact hother

/-- Every call has the answer that the history gives. -/
theorem Call.agree (retains : Bool) (call : Call ε σ ν) :
    Agree (Recalls retains) (fun _ => True) call.serve (call.expect retains) := by
  rintro ⟨c, s⟩ ⟨h, _⟩ hr
  cases hr.state
  have hentries : ∀ key, c.peek key = known retains key h := hr.entries
  cases call with
  | get key => exact ⟨trivial, _, by simp only [expect, ← hentries key, ScanCache.get], hr.get key⟩
  | getOrLoad key load =>
      rw [Ensures, serve, bind_apply]
      cases hp : c.peek key with
      | some value =>
          simp only [getOrLoad_of_hit hp, pure_apply]
          exact ⟨trivial, _, by simp only [expect, ← hentries key, hp], hr.get key⟩
      | none =>
          rw [getOrLoad_of_miss hp]
          simp only [expect, ← hentries key, hp]
          cases load s with
          | ok value s' => exact ⟨trivial, _, rfl, (hr.get key).keep hp value⟩
          | error e s' => exact ⟨_, rfl, hr.retention, hr.entries, rfl⟩
  | invalidate => exact ⟨trivial, _, rfl, recalls_invalidate hr.retention⟩
  | contains key =>
      refine ⟨trivial, _, ?_, hr⟩
      simp only [expect, ← hentries key]
      rfl

/-! ## Counts -/

namespace Call

def isLookup : Call ε σ ν → Bool
  | get _ | getOrLoad _ _ => true
  | invalidate | contains _ => false

def isInvalidation : Call ε σ ν → Bool
  | invalidate => true
  | get _ | getOrLoad _ _ | contains _ => false

/-- How many look-ups find a value: one or none. -/
def hits (c : ScanCache ν) : Call ε σ ν → Nat
  | get key | getOrLoad key _ => (c.contains key).toNat
  | invalidate | contains _ => 0

/-- How many values are dropped. -/
def dropped (c : ScanCache ν) : Call ε σ ν → Nat
  | invalidate => c.size
  | get _ | getOrLoad _ _ | contains _ => 0

end Call

/-- The sum over a run of what each call counts in the cache that it meets. -/
def total (count : ScanCache ν → Call ε σ ν → Nat) : List (Call ε σ ν) → ScanCache ν × σ → Nat
  | [], _ => 0
  | call :: rest, w => count w.1 call + total count rest (finalState (call.serve w))

/-- The counters after so many look-ups, hits and invalidations, and after so many values have
been dropped. What has been inserted and not dropped is still there. -/
structure Tallied (lookups hits invalidations dropped : Nat) (c : ScanCache ν) : Prop where
  accesses : c.stats.accesses = .ofNat lookups
  outcomes : c.stats.accesses = c.stats.hits + c.stats.misses
  hits : c.stats.hits = .ofNat hits
  invalidations : c.stats.invalidations = .ofNat invalidations
  inserts : c.stats.inserts = .ofNat (c.size + dropped)

namespace Tallied

variable {lookups hits invalidations dropped : Nat}

theorem create (retains : Bool) : Tallied 0 0 0 0 (create retains : ScanCache ν) :=
  ⟨rfl, rfl, rfl, rfl, rfl⟩

variable (ht : Tallied lookups hits invalidations dropped c)
include ht

theorem get (key : Fingerprint) :
    Tallied (lookups + 1) (hits + (c.contains key).toNat) invalidations dropped (c.get key).2 := by
  have hs : (c.get key).2.stats = c.stats.countLookup (c.contains key) := rfl
  refine ⟨?_, ?_, ?_, ?_, ?_⟩
  · rw [hs, CacheStats.accesses_countLookup]
    exact add_one_eq_ofNat ht.accesses
  · exact CacheStats.outcomes_countLookup ht.outcomes (c.contains key)
  · rw [hs, CacheStats.hits_countLookup, ht.hits, UInt64.ofNat_add]
  · rw [hs, CacheStats.invalidations_countLookup, ht.invalidations]
  · rw [hs, CacheStats.inserts_countLookup, ht.inserts]
    rfl

/-- A value is only ever kept under a new key, so that each one that is inserted makes the cache
larger by one. -/
theorem keep (hp : c.peek key = none) (value : ν) :
    Tallied lookups hits invalidations dropped (c.keep key value) := by
  rw [ScanCache.keep]
  split
  · have hk : key ∉ c.entries.keys := KeyedList.get?_eq_none_iff.mp hp
    have hsize : (c.entries.insert key value).length = c.size + 1 := by
      simp only [KeyedList.length, KeyedList.entries_insert_of_not_mem hk, List.length_append,
        List.length_singleton, size]
    refine ⟨ht.accesses, ht.outcomes, ht.hits, ht.invalidations, ?_⟩
    change c.stats.inserts + 1 = .ofNat ((c.entries.insert key value).length + dropped)
    rw [hsize, Nat.add_right_comm]
    exact add_one_eq_ofNat ht.inserts
  · exact ht

theorem invalidate : Tallied lookups hits (invalidations + 1) (dropped + c.size) c.invalidate := by
  refine ⟨ht.accesses, ht.outcomes, ht.hits, add_one_eq_ofNat ht.invalidations, ?_⟩
  · change c.stats.inserts = .ofNat (0 + (dropped + c.size))
    rw [ht.inserts, Nat.zero_add, Nat.add_comm]

end Tallied

/-- What a call counts is what it is. -/
theorem Tallied.serve {lookups hits invalidations dropped : Nat} {w : ScanCache ν × σ}
    (ht : Tallied lookups hits invalidations dropped w.1) (call : Call ε σ ν) :
    Tallied (lookups + call.isLookup.toNat) (hits + call.hits w.1)
      (invalidations + call.isInvalidation.toNat) (dropped + call.dropped w.1)
      (finalState (call.serve w)).1 := by
  obtain ⟨c, s⟩ := w
  cases call with
  | get key => exact ht.get key
  | getOrLoad key load =>
      have hget := ht.get key
      rw [finalState_serve_getOrLoad]
      cases hp : c.peek key with
      | some value =>
          rw [getOrLoad_of_hit hp]
          exact hget
      | none =>
          rw [getOrLoad_of_miss hp]
          cases load s with
          | ok value s => exact hget.keep hp value
          | error e s => exact hget
  | invalidate => exact ht.invalidate
  | contains key => exact ht

theorem Tallied.run {lookups hits invalidations dropped : Nat} {w : ScanCache ν × σ}
    (ht : Tallied lookups hits invalidations dropped w.1) (calls : List (Call ε σ ν)) :
    Tallied (lookups + calls.countP Call.isLookup) (hits + total Call.hits calls w)
      (invalidations + calls.countP Call.isInvalidation)
      (dropped + total Call.dropped calls w)
      (runAll (calls.map Call.serve) w).2.1 := by
  induction calls generalizing lookups hits invalidations dropped w with
  | nil => exact ht
  | cons call rest ih =>
      have hrest := ih (ht.serve call)
      simp only [countP_cons_toNat, total, Nat.add_comm (rest.countP _), ← Nat.add_assoc]
      exact hrest

/-! ## Caches that retain nothing -/

/-- Nothing is retained, and nothing has been found or kept. -/
structure Idle (c : ScanCache ν) : Prop where
  retention : c.retains = false
  entries : c.entries = .empty
  hits : c.stats.hits = 0
  inserts : c.stats.inserts = 0

theorem Idle.get (hi : Idle c) (key : Fingerprint) : Idle (c.get key).2 := by
  have hp : c.contains key = false := by rw [contains, hi.entries]; rfl
  have hs : (c.get key).2.stats = c.stats.countLookup false := hp ▸ rfl
  refine ⟨hi.retention, hi.entries, ?_, ?_⟩
  · rw [hs]
    exact hi.hits
  · rw [hs]
    exact hi.inserts

theorem Idle.serve {w : ScanCache ν × σ} (hi : Idle w.1) (call : Call ε σ ν) :
    Idle (finalState (call.serve w)).1 := by
  obtain ⟨c, s⟩ := w
  cases call with
  | get key => exact hi.get key
  | getOrLoad key load =>
      have hp : c.peek key = none := by
        rw [peek, show c.entries = .empty from hi.entries, KeyedList.get?_empty]
      rw [finalState_serve_getOrLoad, getOrLoad_of_miss hp]
      cases load s with
      | ok value s =>
          have hkeep : (c.get key).2.keep key value = (c.get key).2 :=
            if_neg (by rw [(hi.get key).retention]; exact Bool.false_ne_true)
          simp only [finalState, hkeep]
          exact hi.get key
      | error e s => exact hi.get key
  | invalidate => exact ⟨hi.retention, rfl, hi.hits, hi.inserts⟩
  | contains key => exact hi

theorem Idle.run {w : ScanCache ν × σ} (hi : Idle w.1) (calls : List (Call ε σ ν)) :
    Idle (runAll (calls.map Call.serve) w).2.1 := by
  induction calls generalizing w with
  | nil => exact hi
  | cons call rest ih => exact ih (hi.serve call)

/-! ## Runs -/

/-- A cache answers every run of calls as its history says. A load runs exactly when nothing is
known of its key, and one that fails leaves all entries as they were. The counters count the
calls and their answers, and what has been inserted is either there or has been dropped. -/
theorem answers_of_history (retains : Bool) (calls : List (Call ε σ ν)) (s : σ) :
    let start : ScanCache ν × σ := (create retains, s)
    let run := runAll (calls.map Call.serve) start
    let expected := runAll (calls.map (Call.expect retains)) ([], s)
    let c := run.2.1
    (run.1 = expected.1 ∧ run.2.2 = expected.2.2 ∧
      ∀ key, c.peek key = known retains key expected.2.1) ∧
    (∀ key (load : EStateM ε σ ν) e w, getOrLoad key load run.2 = .error e w →
      load run.2.2 = .error e w.2 ∧ w.1.entries = c.entries) ∧
    (c.stats.accesses = c.stats.hits + c.stats.misses ∧
      c.stats.accesses = .ofNat (calls.countP Call.isLookup) ∧
      c.stats.hits = .ofNat (total Call.hits calls start) ∧
      c.stats.invalidations = .ofNat (calls.countP Call.isInvalidation) ∧
      c.stats.inserts = .ofNat (c.size + total Call.dropped calls start)) ∧
    (retains = false → c.isEmpty ∧ c.stats.hits = 0 ∧ c.stats.inserts = 0) := by
  intro start run expected c
  have hagree : ∀ call ∈ calls, Agree (Recalls retains) (fun _ => True)
      (Call.serve call) (Call.expect retains call) := fun call _ => call.agree retains
  obtain ⟨ho, hr⟩ := runAll_agree hagree (recalls_create retains s)
  refine ⟨⟨ho, hr.state.symm, hr.entries⟩, ?_, ?_, ?_⟩
  · intro key load e w h
    obtain hp | ⟨value, hp⟩ := Option.eq_none_or_eq_some (c.peek key)
    · rw [show run.2 = (c, run.2.2) from rfl, getOrLoad_of_miss hp] at h
      cases hl : load run.2.2 with
      | ok value s => rw [hl] at h; cases h
      | error e' s => rw [hl] at h; cases h; exact ⟨rfl, rfl⟩
    · rw [show run.2 = (c, run.2.2) from rfl, getOrLoad_of_hit hp] at h
      cases h
  · have ht := (Tallied.create (ν := ν) retains).run (w := start) calls
    simp only [Nat.zero_add] at ht
    exact ⟨ht.outcomes, ht.accesses, ht.hits, ht.invalidations, ht.inserts⟩
  · rintro rfl
    have hstart : Idle start.1 := ⟨rfl, rfl, rfl, rfl⟩
    have hi : Idle c := hstart.run calls
    exact ⟨by rw [isEmpty, hi.entries]; rfl, hi.hits, hi.inserts⟩

end TableStore.ScanCache
