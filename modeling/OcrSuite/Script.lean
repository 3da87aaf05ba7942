import Mathlib.Data.List.Basic

/-! Scripts of statements against a store with transactions. A statement outside a transaction
commits by itself, a script stops at its first failing command, and a transaction that never
reached its commit is rolled back when its session ends. -/
namespace OcrSuite.Script

variable {δ : Type}

/-- A statement that fails leaves the store as it was. -/
abbrev Statement (δ : Type) := δ → Option δ

inductive Command (δ : Type) where
  | begin
  | commit
  | execute (statement : Statement δ)

structure Session (δ : Type) where
  durable : δ
  transaction : Option δ

def connect (db : δ) : Session δ := ⟨db,none⟩

def Session.step (s : Session δ) : Command δ → Option (Session δ)
  | .begin =>
    match s.transaction with
    | none => some { s with transaction := some s.durable }
    | some _ => none
  | .commit => s.transaction.map fun db => ⟨db,none⟩
  | .execute statement =>
    match s.transaction with
    | none => (statement s.durable).map fun db => ⟨db,none⟩
    | some db => (statement db).map fun db' => { s with transaction := some db' }

/-- The session after the last command that succeeded, and whether that was all of them. -/
def execute : Session δ → List (Command δ) → Session δ × Bool
  | s, [] => (s,true)
  | s, c :: rest =>
    match s.step c with
    | none => (s,false)
    | some t => execute t rest

/-- What is left on the disk when the session ends before the command at `point`, because
the process died or because that command failed. -/
def stoppedAt (point : Nat) (script : List (Command δ)) (db : δ) : δ :=
  (execute (connect db) (script.take point)).1.durable

def completed (script : List (Command δ)) (db : δ) : δ × Bool :=
  let (s,finished) := execute (connect db) script
  (s.durable,finished)

/-- A session whose command at the position `fault`, if it has one there, fails. -/
def attempt (fault : Option Nat) (script : List (Command δ)) (db : δ) : δ × Bool :=
  match fault with
  | none => completed script db
  | some point =>
    if point < script.length then (stoppedAt point script db,false) else completed script db

def transaction (body : List (Statement δ)) : List (Command δ) :=
  .begin :: body.map .execute ++ [.commit]

/-- The number of commands up to the first commit of a transaction. -/
def firstCommit (script : List (Command δ)) : Nat :=
  script.findIdx (fun c => match c with | .commit => true | _ => false) + 1

/-- All statements in a row, without a transaction around them. -/
def applyAll : List (Statement δ) → Statement δ
  | [], db => some db
  | statement :: rest, db => (statement db).bind (applyAll rest)

@[simp] theorem length_transaction (body : List (Statement δ)) :
    (transaction body).length = body.length + 2 := by
  simp [transaction]

theorem applyAll_append (front rest : List (Statement δ)) (db : δ) :
    applyAll (front ++ rest) db = (applyAll front db).bind (applyAll rest) := by
  induction front generalizing db with
  | nil => rfl
  | cons statement front ih =>
    cases done : statement db with
    | none => simp [applyAll,done]
    | some next => simpa [applyAll,done] using ih next

/-- Inside a transaction nothing reaches the disk. -/
theorem execute_body (db view : δ) (body : List (Statement δ)) :
    (execute ⟨db,some view⟩ (body.map .execute)).1.durable = db := by
  induction body generalizing view with
  | nil => rfl
  | cons statement body ih =>
    cases done : statement view with
    | none => simp [execute,Session.step,done]
    | some next => simpa [execute,Session.step,done] using ih next

theorem execute_body_append (db view : δ) (body : List (Statement δ)) (rest : List (Command δ)) :
    (∀ view', applyAll body view = some view' →
      execute ⟨db,some view⟩ (body.map .execute ++ rest) = execute ⟨db,some view'⟩ rest) ∧
    (applyAll body view = none →
      (execute ⟨db,some view⟩ (body.map .execute ++ rest)).1.durable = db ∧
      (execute ⟨db,some view⟩ (body.map .execute ++ rest)).2 = false) := by
  induction body generalizing view with
  | nil => simp [applyAll]
  | cons statement body ih =>
    cases done : statement view with
    | none => simp [applyAll,execute,Session.step,done]
    | some next => simpa [applyAll,execute,Session.step,done] using ih next

/-- A transaction whose statements succeed has the effect of all of them. -/
theorem execute_transaction {body : List (Statement δ)} {db db' : δ}
    (applied : applyAll body db = some db') (rest : List (Command δ)) :
    execute (connect db) (transaction body ++ rest) = execute (connect db') rest := by
  have inside := (execute_body_append db db body (.commit :: rest)).1 db' applied
  simpa [transaction,execute,connect,Session.step] using inside

/-- A transaction with a failing statement has no effect, and nothing follows it. -/
theorem execute_transaction_fails {body : List (Statement δ)} {db : δ}
    (fails : applyAll body db = none) (rest : List (Command δ)) :
    (execute (connect db) (transaction body ++ rest)).1.durable = db ∧
    (execute (connect db) (transaction body ++ rest)).2 = false := by
  have inside := (execute_body_append db db body (.commit :: rest)).2 fails
  simpa [transaction,execute,connect,Session.step] using inside

theorem completed_transaction {body : List (Statement δ)} {db db' : δ}
    (applied : applyAll body db = some db') (rest : List (Command δ)) :
    completed (transaction body ++ rest) db = completed rest db' := by
  simp [completed,execute_transaction applied]

theorem completed_transaction_fails {body : List (Statement δ)} {db : δ}
    (fails : applyAll body db = none) (rest : List (Command δ)) :
    completed (transaction body ++ rest) db = (db,false) := by
  obtain ⟨kept,stopped⟩ := execute_transaction_fails fails rest
  simp [completed,kept,stopped]

/-- Before its commit a transaction leaves no trace. -/
theorem stoppedAt_transaction {body : List (Statement δ)} {point : Nat}
    (early : point < (transaction body).length) (rest : List (Command δ)) (db : δ) :
    stoppedAt point (transaction body ++ rest) db = db := by
  cases point with
  | zero => rfl
  | succ point =>
    have inBody : point ≤ body.length := by
      rw [length_transaction] at early
      omega
    have cut : (transaction body ++ rest).take (point + 1) =
        .begin :: (body.take point).map .execute := by
      simp [transaction,List.take_append,Nat.sub_eq_zero_of_le inBody]
    simpa [stoppedAt,cut,execute,connect,Session.step] using execute_body db db (body.take point)

/-- After its commit it is the rest of the script that is interrupted. -/
theorem stoppedAt_after_transaction {body : List (Statement δ)} {db db' : δ}
    (applied : applyAll body db = some db') (rest : List (Command δ)) (point : Nat) :
    stoppedAt ((transaction body).length + point) (transaction body ++ rest) db =
      stoppedAt point rest db' := by
  have whole : (transaction body).take ((transaction body).length + point) = transaction body :=
    List.take_of_length_le (Nat.le_add_right _ _)
  rw [stoppedAt,List.take_append,whole,Nat.add_sub_cancel_left,execute_transaction applied,stoppedAt]

theorem firstCommit_transaction (body : List (Statement δ)) (rest : List (Command δ)) :
    firstCommit (transaction body ++ rest) = (transaction body).length := by
  have searched : ∀ body : List (Statement δ),
      (body.map Command.execute ++ .commit :: rest).findIdx
        (fun c => match c with | .commit => true | _ => false) = body.length := by
    intro body
    induction body with
    | nil => simp [List.findIdx_cons]
    | cons statement body ih => simp [List.findIdx_cons,ih]
  simp [firstCommit,transaction,List.findIdx_cons,searched]

/-- A single transaction is atomic: it happens as a whole or not at all. -/
theorem attempt_transaction {body : List (Statement δ)} {db db' : δ}
    (applied : applyAll body db = some db') (fault : Option Nat) :
    attempt fault (transaction body) db =
      if fault.all ((transaction body).length ≤ ·) then (db',true) else (db,false) := by
  have done : completed (transaction body) db = (db',true) := by
    simpa [completed,execute,connect] using completed_transaction applied []
  cases fault with
  | none => simpa [attempt] using done
  | some point =>
    by_cases early : point < (transaction body).length
    · have kept := stoppedAt_transaction early [] db
      rw [List.append_nil] at kept
      rw [attempt,if_pos early,kept,if_neg (by simpa using early)]
    · rw [attempt,if_neg early,done,if_pos (by simpa using early)]

/-! ## What every statement keeps -/

/-- Both what is on the disk and what the open transaction sees. -/
def Session.Holds (P : δ → Prop) (s : Session δ) : Prop :=
  P s.durable ∧ ∀ db, s.transaction = some db → P db

theorem Session.Holds.step {P : δ → Prop} {s t : Session δ} {c : Command δ} (holds : s.Holds P)
    (kept : ∀ statement, c = .execute statement → ∀ db db', P db → statement db = some db' → P db')
    (taken : s.step c = some t) : t.Holds P := by
  obtain ⟨durable,view⟩ := s
  cases c with
  | begin =>
    cases view with
    | some _ => simp [Session.step] at taken
    | none =>
      obtain rfl : _ = t := by simpa [Session.step] using taken
      exact ⟨holds.1,by simpa using holds.1⟩
  | commit =>
    obtain ⟨db,seen,rfl⟩ := Option.map_eq_some_iff.mp taken
    exact ⟨holds.2 db seen,by simp⟩
  | execute statement =>
    cases view with
    | none =>
      obtain ⟨db,executed,rfl⟩ := Option.map_eq_some_iff.mp taken
      exact ⟨kept statement rfl _ _ holds.1 executed,by simp⟩
    | some view =>
      obtain ⟨db,executed,rfl⟩ := Option.map_eq_some_iff.mp taken
      have next := kept statement rfl _ _ (holds.2 view rfl) executed
      exact ⟨holds.1,by simpa using next⟩

/-- A property that no statement of a script breaks holds wherever the script ends. -/
theorem execute_invariant {P : δ → Prop} {script : List (Command δ)}
    (kept : ∀ statement, .execute statement ∈ script →
      ∀ db db', P db → statement db = some db' → P db')
    {s : Session δ} (holds : s.Holds P) : (execute s script).1.Holds P := by
  induction script generalizing s with
  | nil => exact holds
  | cons c rest ih =>
    unfold execute
    split
    · exact holds
    · rename_i t taken
      have first := holds.step (fun statement same => kept statement (same ▸ List.mem_cons_self)) taken
      exact ih (fun statement member => kept statement (List.mem_cons_of_mem c member)) first

theorem attempt_invariant {P : δ → Prop} {script : List (Command δ)}
    (kept : ∀ statement, .execute statement ∈ script →
      ∀ db db', P db → statement db = some db' → P db')
    {db : δ} (holds : P db) (fault : Option Nat) : P (attempt fault script db).1 := by
  have connected : (connect db).Holds P := ⟨holds,by simp [connect]⟩
  have whole : P (completed script db).1 := (execute_invariant kept connected).1
  unfold attempt
  split
  · exact whole
  · rename_i point
    split
    · exact (execute_invariant (fun statement member => kept statement (List.mem_of_mem_take member))
        connected).1
    · exact whole

end OcrSuite.Script
