import Mathlib.Logic.Function.Iterate

/-! `task::find_task`: the local queue first, then rounds over the injector and the
stealers, until a round is not to be retried. What a queue answers may depend on all the
calls that were made before. -/

namespace Nacl

namespace Crossbeam

variable {T σ : Type*}

inductive Steal (T : Type*)
  | empty
  | success (t : T)
  | retry
deriving DecidableEq

def Steal.isRetry : Steal T → Bool
  | .retry => true
  | _ => false

def Steal.success? : Steal T → Option T
  | .success t => some t
  | _ => none

/-- The closure acts on the state of type `σ`. -/
def Steal.orElse (self : Steal T) (f : σ → Steal T × σ) (s : σ) : Steal T × σ :=
  match self with
  | .empty => f s
  | .success t => (.success t, s)
  | .retry => match f s with
    | (.success res, s) => (.success res, s)
    | (_, s) => (.retry, s)

/-- `FromIterator for Steal`, from where it has seen a `Retry` or not. -/
def Steal.fromIter (retry : Bool) : List (σ → Steal T × σ) → σ → Steal T × σ
  | [], s => (if retry then .retry else .empty, s)
  | x :: iter, s => match x s with
    | (.empty, s) => Steal.fromIter retry iter s
    | (.success t, s) => (.success t, s)
    | (.retry, s) => Steal.fromIter true iter s

/-- `iter::repeat_with(f).find(|s| !s.is_retry())` for at most `n` rounds; it has no answer
while every round was to be retried. -/
def findNotRetry (f : σ → Steal T × σ) : Nat → σ → Option (Steal T) × σ
  | 0, s => (none, s)
  | n + 1, s => match f s with
    | (x, s) => if x.isRetry then findNotRetry f n s else (some x, s)

section Lemmas

variable (f : σ → Steal T × σ) (s : σ)

theorem Steal.orElse_retry_state : ((.retry : Steal T).orElse f s).2 = (f s).2 := by
  rw [Steal.orElse]
  rcases f s with ⟨_ | _ | _, s'⟩ <;> rfl

theorem Steal.orElse_retry_success :
    ((.retry : Steal T).orElse f s).1.success? = (f s).1.success? := by
  rw [Steal.orElse]
  rcases f s with ⟨_ | _ | _, s'⟩ <;> rfl

/-- A `Retry` is not forgotten over an `Empty` that comes after it. -/
theorem Steal.orElse_retry_ne_empty : ((.retry : Steal T).orElse f s).1 ≠ .empty := by
  rw [Steal.orElse]
  rcases f s with ⟨_ | _ | _, s'⟩ <;> simp

theorem Steal.success?_eq_none_of_isRetry {x : Steal T} (h : x.isRetry = true) :
    x.success? = none := by
  cases x <;> simp_all [Steal.isRetry, Steal.success?]

theorem Steal.eq_empty {x : Steal T} (h : x.isRetry = false) (hs : x.success? = none) :
    x = .empty := by
  cases x <;> simp_all [Steal.isRetry, Steal.success?]

/-- The rounds go on exactly as long as every one is to be retried. -/
theorem findNotRetry_eq_none_iff {n : Nat} :
    (findNotRetry f n s).1 = none ↔
      ∀ k < n, (f ((fun s => (f s).2)^[k] s)).1.isRetry = true := by
  induction n generalizing s with
  | zero => simp [findNotRetry]
  | succ n ih =>
    rw [findNotRetry]
    dsimp only
    by_cases hr : (f s).1.isRetry = true
    · rw [if_pos hr, ih]
      constructor
      · intro h k hk
        cases k with
        | zero => exact hr
        | succ k => exact h k (by omega)
      · intro h k hk
        exact h (k + 1) (by omega)
    · rw [if_neg hr]
      constructor
      · intro h
        cases h
      · intro h
        exact absurd (h 0 (by omega)) hr

end Lemmas

end Crossbeam

variable {ι T : Type*}

/-- A call that `find_task` made and its answer. -/
inductive Call (ι T : Type*)
  | pop (r : Option T)
  | stealBatchAndPop (r : Crossbeam.Steal T)
  | steal (s : ι) (r : Crossbeam.Steal T)
deriving DecidableEq

def Call.delivered : Call ι T → Option T
  | .pop r => r
  | .stealBatchAndPop r | .steal _ r => r.success?

/-- The local queue, the injector and the stealers: what each answers to its next call. -/
structure Queues (ι T : Type*) where
  pop : List (Call ι T) → Option T
  stealBatchAndPop : List (Call ι T) → Crossbeam.Steal T
  steal : ι → List (Call ι T) → Crossbeam.Steal T

def Queues.callPop (q : Queues ι T) (log : List (Call ι T)) : Option T × List (Call ι T) :=
  (q.pop log, log ++ [.pop (q.pop log)])

def Queues.callStealBatchAndPop (q : Queues ι T) (log : List (Call ι T)) :
    Crossbeam.Steal T × List (Call ι T) :=
  (q.stealBatchAndPop log, log ++ [.stealBatchAndPop (q.stealBatchAndPop log)])

def Queues.callSteal (q : Queues ι T) (s : ι) (log : List (Call ι T)) :
    Crossbeam.Steal T × List (Call ι T) :=
  (q.steal s log, log ++ [.steal s (q.steal s log)])

/-- The closure of `repeat_with`. -/
def Queues.round (q : Queues ι T) (stealers : List ι) (log : List (Call ι T)) :
    Crossbeam.Steal T × List (Call ι T) :=
  match q.callStealBatchAndPop log with
  | (s, log) => s.orElse (Crossbeam.Steal.fromIter false (stealers.map q.callSteal)) log

/-- The answer is `none` as long as `find_task` has not returned. -/
def findTask (q : Queues ι T) (stealers : List ι) (fuel : Nat) (log : List (Call ι T)) :
    Option (Option T) × List (Call ι T) :=
  match q.callPop log with
  | (some t, log) => (some (some t), log)
  | (none, log) => match Crossbeam.findNotRetry (q.round stealers) fuel log with
    | (none, log) => (none, log)
    | (some s, log) => (some s.success?, log)

/-- The calls of one attempt at a task: they delivered what the attempt returns, and the
last one did. -/
structure Attempt (r : Option T) (calls : List (Call ι T)) : Prop where
  delivered : calls.filterMap Call.delivered = r.toList
  final : ∀ t, r = some t → calls.getLast?.bind Call.delivered = some t

/-- The calls of a round in which no queue had a task. -/
def emptyRound (stealers : List ι) : List (Call ι T) :=
  .stealBatchAndPop .empty :: stealers.map fun s => .steal s .empty

theorem Attempt.nil : Attempt none ([] : List (Call ι T)) :=
  ⟨rfl, fun _ h => by cases h⟩

theorem Attempt.single (c : Call ι T) : Attempt c.delivered [c] := by
  constructor
  · cases h : c.delivered <;> simp [h]
  · intro t ht
    simpa using ht

theorem Attempt.after {r : Option T} {before calls : List (Call ι T)} (h : Attempt r calls)
    (hbefore : Attempt none before) : Attempt r (before ++ calls) := by
  constructor
  · rw [List.filterMap_append, hbefore.delivered, h.delivered]
    rfl
  · intro t ht
    obtain ⟨c, hc, hd⟩ := Option.bind_eq_some_iff.mp (h.final t ht)
    rw [List.getLast?_append, hc]
    exact hd

theorem Attempt.cons {r : Option T} {c : Call ι T} {calls : List (Call ι T)} (h : Attempt r calls)
    (hc : c.delivered = none) : Attempt r (c :: calls) := by
  have hsingle := Attempt.single c
  rw [hc] at hsingle
  exact h.after hsingle

variable {q : Queues ι T} {stealers : List ι}

theorem Queues.fromIter_spec (q : Queues ι T) (stealers : List ι) (retry : Bool)
    (log : List (Call ι T)) :
    ∃ calls, (Crossbeam.Steal.fromIter retry (stealers.map q.callSteal) log).2 = log ++ calls ∧
      Attempt (Crossbeam.Steal.fromIter retry (stealers.map q.callSteal) log).1.success? calls ∧
      ((Crossbeam.Steal.fromIter retry (stealers.map q.callSteal) log).1 = .empty →
        retry = false ∧ calls = stealers.map fun s => .steal s .empty) := by
  induction stealers generalizing retry log with
  | nil =>
    refine ⟨[], by simp [Crossbeam.Steal.fromIter], ?_, ?_⟩
    · cases retry <;> exact .nil
    · cases retry <;> simp [Crossbeam.Steal.fromIter]
  | cons s stealers ih =>
    have hcall : q.callSteal s log = (q.steal s log, log ++ [.steal s (q.steal s log)]) := rfl
    rw [List.map_cons, Crossbeam.Steal.fromIter, hcall]
    cases ha : q.steal s log with
    | empty =>
      obtain ⟨calls, hlog, hatt, hempty⟩ := ih retry (log ++ [.steal s .empty])
      refine ⟨.steal s .empty :: calls, ?_, hatt.cons rfl, ?_⟩
      · simpa using hlog
      · intro h
        obtain ⟨hr, hcalls⟩ := hempty h
        exact ⟨hr, by rw [hcalls, List.map_cons]⟩
    | success t =>
      have hsingle := Attempt.single (.steal s (.success t))
      exact ⟨_, rfl, hsingle, fun h => by cases h⟩
    | retry =>
      obtain ⟨calls, hlog, hatt, hempty⟩ := ih true (log ++ [.steal s .retry])
      refine ⟨.steal s .retry :: calls, ?_, hatt.cons rfl, ?_⟩
      · simpa using hlog
      · intro h
        exact absurd (hempty h).1 (by decide)

/-- A round that is not a success delivered nothing, and it is empty only if every queue
that it asked was. -/
theorem Queues.round_spec (q : Queues ι T) (stealers : List ι) (log : List (Call ι T)) :
    ∃ calls, (q.round stealers log).2 = log ++ calls ∧
      Attempt (q.round stealers log).1.success? calls ∧
      ((q.round stealers log).1 = .empty → calls = emptyRound stealers) := by
  rw [Queues.round, Queues.callStealBatchAndPop]
  dsimp only
  cases ha : q.stealBatchAndPop log with
  | empty =>
    obtain ⟨calls, hlog, hatt, hempty⟩ := q.fromIter_spec stealers false
      (log ++ [.stealBatchAndPop .empty])
    refine ⟨.stealBatchAndPop .empty :: calls, ?_, hatt.cons rfl, ?_⟩
    · simpa [Crossbeam.Steal.orElse] using hlog
    · intro h
      rw [(hempty h).2, emptyRound]
  | success t =>
    have hsingle := Attempt.single (ι := ι) (.stealBatchAndPop (.success t))
    exact ⟨_, rfl, hsingle, fun h => by cases h⟩
  | retry =>
    obtain ⟨calls, hlog, hatt, -⟩ := q.fromIter_spec stealers false
      (log ++ [.stealBatchAndPop .retry])
    refine ⟨.stealBatchAndPop .retry :: calls, ?_, ?_, ?_⟩
    · rw [Crossbeam.Steal.orElse_retry_state, hlog]
      simp
    · rw [Crossbeam.Steal.orElse_retry_success]
      exact hatt.cons rfl
    · intro h
      exact absurd h (Crossbeam.Steal.orElse_retry_ne_empty _ _)

theorem findNotRetry_spec {s : Crossbeam.Steal T} {n : Nat} {log log' : List (Call ι T)}
    (h : Crossbeam.findNotRetry (q.round stealers) n log = (some s, log')) :
    ∃ calls, log' = log ++ calls ∧ Attempt s.success? calls ∧ s.isRetry = false ∧
      (s = .empty → ∃ rounds, calls = rounds ++ emptyRound stealers) := by
  induction n generalizing log with
  | zero => cases h
  | succ n ih =>
    obtain ⟨calls, hlog, hatt, hempty⟩ := q.round_spec stealers log
    rw [Crossbeam.findNotRetry] at h
    dsimp only at h
    by_cases hr : (q.round stealers log).1.isRetry = true
    · rw [if_pos hr] at h
      rw [Crossbeam.Steal.success?_eq_none_of_isRetry hr] at hatt
      obtain ⟨calls', hlog', hatt', hs, hempty'⟩ := ih h
      refine ⟨calls ++ calls', ?_, hatt'.after hatt, hs, ?_⟩
      · rw [hlog', hlog, List.append_assoc]
      · intro he
        obtain ⟨rounds, hcalls⟩ := hempty' he
        exact ⟨calls ++ rounds, by rw [hcalls, List.append_assoc]⟩
    · rw [if_neg hr] at h
      obtain ⟨hs, rfl⟩ := Prod.mk.inj h
      obtain rfl := Option.some.inj hs
      exact ⟨calls, hlog, hatt, by simpa using hr, fun he => ⟨[], hempty he⟩⟩

/-- What a call of `find_task` that returned `r` has done: of its calls only the last one
can have delivered a task, which it returns, and it returns nothing only if the local
queue and then, in the last round, all others were empty. -/
structure Found (stealers : List ι) (r : Option T) (log : List (Call ι T)) : Prop extends
    Attempt r log where
  empty : r = none → ∃ rounds, log = .pop none :: rounds ++ emptyRound stealers

theorem find_task_keeps_stolen {fuel : Nat} {r : Option T} {log : List (Call ι T)}
    (h : findTask q stealers fuel [] = (some r, log)) : Found stealers r log := by
  rw [findTask, Queues.callPop] at h
  cases ha : q.pop [] with
  | some t =>
    rw [ha] at h
    obtain ⟨hr, rfl⟩ := Prod.mk.inj h
    obtain rfl := Option.some.inj hr
    exact ⟨.single (.pop (some t)), fun hn => by cases hn⟩
  | none =>
    rw [ha] at h
    dsimp only at h
    cases hf : Crossbeam.findNotRetry (q.round stealers) fuel ([] ++ [.pop none]) with
    | mk a log' =>
      rw [hf] at h
      cases a with
      | none => cases h
      | some s =>
        obtain ⟨hr, rfl⟩ := Prod.mk.inj h
        obtain rfl := Option.some.inj hr
        obtain ⟨calls, rfl, hatt, hs, hempty⟩ := findNotRetry_spec hf
        refine ⟨hatt.cons rfl, ?_⟩
        intro hn
        obtain ⟨rounds, rfl⟩ := hempty (Crossbeam.Steal.eq_empty hs hn)
        exact ⟨rounds, rfl⟩

/-- Two stealers, which have to be asked again, and one of them then has task 7. -/
def contendedQueues : Queues Bool Nat where
  pop _ := none
  stealBatchAndPop log := if log.length < 2 then .retry else .empty
  steal s log := if log.length < 4 then .retry else if s then .success 7 else .empty

theorem find_task_keeps_stolen_contended :
    Found [false, true] (some 7) ([.pop none, .stealBatchAndPop .retry, .steal false .retry,
      .steal true .retry, .stealBatchAndPop .empty, .steal false .empty, .steal true (.success 7)] :
      List (Call Bool Nat)) :=
  find_task_keeps_stolen (show findTask contendedQueues [false, true] 2 [] = _ by rfl)

end Nacl
