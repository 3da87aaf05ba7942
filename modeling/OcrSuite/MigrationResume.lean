import Mathlib.Tactic.IntervalCases
import OcrSuite.Migration

/-! Updates that stop half way, and what becomes of the database when it is opened again. An
update whose own transaction was committed before it stopped is run once more from its
beginning, where it finds what it is about to create. -/
namespace OcrSuite.Migration

open Interning Script Disk

variable {F R : Type}

/-- The updates stop before the first commit of one of them, or after the last. -/
def StopsUncommitted (driver : Driver F R) : Nat → Nat → Contents R → Prop
  | 0,_,_ => True
  | count + 1,point,c =>
    match dbUpdate driver c.disk c.version with
    | none => True
    | some script =>
      let steps := recorded script c.version
      if point < steps.length then point < firstCommit script
      else StopsUncommitted driver count (point - steps.length) (c.next driver)

/-- An update that stops before its first commit has changed nothing. -/
theorem stopped_uncommitted (driver : Driver F R) {c : Contents R} {script : List (Command (Disk R))}
    (update : dbUpdate driver c.disk c.version = some script) {point : Nat}
    (early : point < firstCommit script) :
    stoppedAt point (recorded script c.version) c.disk = c.disk := by
  cases c with
  | nothing =>
    cases update
    have : point < 5 := early
    interval_cases point <;> rfl
  | entries rows =>
    cases update
    have : point < 4 := early
    interval_cases point <;> rfl
  | indexed rows =>
    cases update
    have : point < 4 := early
    interval_cases point <;> rfl
  | checkpointed rows last =>
    cases update
    rw [updateV3,firstCommit_transaction] at early
    rw [recorded,updateV3,List.append_assoc]
    exact stoppedAt_transaction early _ _
  | normalised store => cases update

/-- Version 3 cannot be left once the new tables are there. -/
theorem updateV3_again (driver : Driver F R) {d : Disk R} (version : d.version = 3)
    (created : d.textEntries.isSome = true) : (openDatabase driver d).2 = false := by
  have fails : applyAll (updateV3Safe driver d) d = none := by
    obtain ⟨entries,present⟩ := Option.isSome_iff_exists.mp created
    simp [updateV3Safe,schemaUpdate,applyAll,createTextEntries,present]
  have stops : completed (recorded (updateV3 driver d) 3) d = (d,false) := by
    rw [recorded,updateV3,List.append_assoc]
    exact completed_transaction_fails fails _
  simp [openDatabase,version,currentDbVersion,upgrade,dbUpdate,stops]

/-- An update that stops after its first commit and before its version is recorded leaves a
database that it cannot be run on again. -/
theorem stopped_committed (driver : Driver F R) {c : Contents R} {script : List (Command (Disk R))}
    (update : dbUpdate driver c.disk c.version = some script) {point : Nat}
    (late : firstCommit script ≤ point) (inside : point < (recorded script c.version).length) :
    (openDatabase driver (stoppedAt point (recorded script c.version) c.disk)).2 = false := by
  cases c with
  | nothing =>
    cases update
    have : 5 ≤ point := late
    have : point < 6 := inside
    interval_cases point
    rfl
  | entries rows =>
    cases update
    have : 4 ≤ point := late
    have : point < 5 := inside
    interval_cases point
    rfl
  | indexed rows =>
    cases update
    have : 4 ≤ point := late
    have : point < 6 := inside
    interval_cases point <;> rfl
  | checkpointed rows last =>
    cases update
    rw [updateV3,firstCommit_transaction] at late
    obtain ⟨past,rfl⟩ := Nat.exists_eq_add_of_le late
    have : past < 3 := by simpa [recorded,updateV3] using inside
    rw [recorded,updateV3,List.append_assoc,
      stoppedAt_after_transaction (applyAll_updateV3Safe driver rows last)]
    apply updateV3_again <;> interval_cases past <;> rfl
  | normalised store => cases update

theorem stoppedUpgrade_resumes_iff (driver : Driver F R) (count point : Nat) (c : Contents R)
    (left : c.version + count = currentDbVersion) :
    openDatabase driver (stoppedUpgrade driver count point c.version c.disk) =
      openDatabase driver c.disk ↔ StopsUncommitted driver count point c := by
  induction count generalizing c point with
  | zero => simp [stoppedUpgrade,StopsUncommitted]
  | succ count ih =>
    have older : c.version < currentDbVersion := by omega
    obtain ⟨script,update,done⟩ := update_completes driver older
    have final := open_completes driver c
    by_cases within : point < (recorded script c.version).length
    · by_cases early : point < firstCommit script
      · have same := stopped_uncommitted driver update early
        simp [stoppedUpgrade,StopsUncommitted,update,within,early,same]
      · have broken := stopped_committed driver update (Nat.not_lt.mp early) within
        have different : openDatabase driver (stoppedAt point (recorded script c.version) c.disk) ≠
            openDatabase driver c.disk := by
          intro same
          rw [same,final] at broken
          cases broken
        simp [stoppedUpgrade,StopsUncommitted,update,within,early,different]
    · have nextVersion := version_next driver older
      have later := ih (point - (recorded script c.version).length) (c.next driver) (by omega)
      have same : openDatabase driver (c.next driver).disk = openDatabase driver c.disk := by
        rw [final,open_completes driver (c.next driver),nextVersion,← Function.iterate_succ_apply]
        congr 4
        omega
      rw [nextVersion,same] at later
      simpa [stoppedUpgrade,StopsUncommitted,update,within,done] using later

/-- `DROP TABLE ocr_entries` fails: the new tables stay, the version does not move on, and the
next start tries to create them again. -/
theorem interrupted_update_fails : ¬ ∀ (driver : Driver Int Int) (c : Contents Int) (point : Nat),
    openDatabase driver (stoppedOpen driver point c.disk) = openDatabase driver c.disk := by
  intro claim
  let c : Contents Int := .checkpointed [⟨1,some 2,some 3,some 4,some 5,some 90,"a"⟩] 1
  have broken : (openDatabase Driver.exact (stoppedOpen Driver.exact 9 c.disk)).2 = false := by rfl
  rw [claim Driver.exact c 9,open_completes] at broken
  cases broken

/-- From every version, with any contents and wherever the updates stop: opened again, the
database ends as it does without the interruption exactly when the update that was stopped
had committed nothing yet. -/
theorem interrupted_update_resumes_iff (driver : Driver F R) (c : Contents R) (point : Nat) :
    ∃ d, openDatabase driver c.disk = (d,true) ∧
      (openDatabase driver (stoppedOpen driver point c.disk) = (d,true) ↔
        StopsUncommitted driver (currentDbVersion - c.version) point c) := by
  refine ⟨_,open_completes driver c,?_⟩
  rw [← open_completes driver c,stoppedOpen,version_disk]
  exact stoppedUpgrade_resumes_iff driver _ point c (Nat.add_sub_of_le (version_le c))

end OcrSuite.Migration
