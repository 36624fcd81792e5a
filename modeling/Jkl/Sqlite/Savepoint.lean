import Mathlib.Tactic.Common

/-! `sqlite3_scoped_savepoint` inside one `sqlite3_scoped_transaction`, over the documented
savepoint stack of SQLite. A database state is of any type `α`; a write is a function on it. -/
namespace Jkl.Sqlite

variable {α : Type*}

/-- The state of the database and the savepoints, the most recent one first, each with the
state it was made in. -/
structure Db (α : Type*) where
  cur : α
  stack : List (String × α)

/-- Savepoint names are case-insensitive. -/
def sameName (m n : String) : Bool := m.toLower == n.toLower

namespace Db

/-- The stack from the most recent savepoint called `n` on. -/
def upTo (n : String) (d : Db α) : List (String × α) :=
  d.stack.dropWhile fun p => !sameName n p.1

/-- `SAVEPOINT n`. -/
def savepoint (n : String) (d : Db α) : Db α := { d with stack := (n, d.cur) :: d.stack }

/-- `RELEASE n`: an error when there is no such savepoint. -/
def release (n : String) (d : Db α) : Option (Db α) :=
  match d.upTo n with
  | [] => none
  | _ :: rest => some { d with stack := rest }

/-- `ROLLBACK TO n`: the savepoint stays on the stack. -/
def rollbackTo (n : String) (d : Db α) : Option (Db α) :=
  match d.upTo n with
  | [] => none
  | (m, a) :: rest => some ⟨a, (m, a) :: rest⟩

end Db

/-- The members `_released` and `_name`. -/
structure ScopedSavepoint where
  released : Bool
  name : String
  deriving DecidableEq, Repr

namespace ScopedSavepoint

def construct (name : String) (d : Db α) : ScopedSavepoint × Db α :=
  (⟨false, name⟩, d.savepoint name)

def release (sp : ScopedSavepoint) (d : Db α) : Option (ScopedSavepoint × Db α) :=
  (d.release sp.name).map fun d => ({ sp with released := true }, d)

/-- The destructor. -/
def destroy (sp : ScopedSavepoint) (d : Db α) : Option (Db α) :=
  if !sp.released then d.rollbackTo sp.name else some d

end ScopedSavepoint

/-- A name argument that is left out. -/
def defaultName : String := "sp"

/-- Programs of nested scopes. A released scope has a part before the call of `release` and a
part after it; an abandoned one never makes the call. -/
inductive Prog (α : Type*) where
  | skip
  | write (f : α → α)
  | seq (p q : Prog α)
  | released (name : Option String) (body after : Prog α)
  | abandoned (name : Option String) (body : Prog α)

namespace Prog

/-- `none` is an error of SQLite, which leaves `release` or the destructor as an exception. -/
def run : Prog α → Db α → Option (Db α)
  | skip, d => some d
  | write f, d => some { d with cur := f d.cur }
  | seq p q, d => (p.run d).bind q.run
  | released name body after, d =>
    let (sp, d) := ScopedSavepoint.construct (name.getD defaultName) d
    (body.run d).bind fun d =>
      (sp.release d).bind fun (sp, d) => (after.run d).bind sp.destroy
  | abandoned name body, d =>
    let (sp, d) := ScopedSavepoint.construct (name.getD defaultName) d
    (body.run d).bind sp.destroy

/-- `sqlite3_scoped_transaction` around a program, committed at its end or not. -/
def transaction (p : Prog α) (commit : Bool) (a : α) : Option α :=
  (p.run ⟨a, []⟩).map fun d => if commit then d.cur else a

/-- What a program is meant to do to the database: an abandoned scope does nothing. -/
def effect : Prog α → α → α
  | skip, a => a
  | write f, a => f a
  | seq p q, a => q.effect (p.effect a)
  | released _ body after, a => after.effect (body.effect a)
  | abandoned _ _, a => a

/-- Every scope that the program enters from `d` does what it is meant to do to the database
and leaves the savepoint stack as it was. -/
def Nests : Prog α → Db α → Prop
  | skip, _ => True
  | write _, _ => True
  | seq p q, d => p.Nests d ∧ ∀ d', p.run d = some d' → q.Nests d'
  | released name body after, d =>
    let n := name.getD defaultName
    body.Nests (d.savepoint n) ∧
      (∀ d₁ d₂, body.run (d.savepoint n) = some d₁ → d₁.release n = some d₂ → after.Nests d₂) ∧
      (released name body after).run d =
        some ⟨(released name body after).effect d.cur, d.stack⟩
  | abandoned name body, d =>
    body.Nests (d.savepoint (name.getD defaultName)) ∧
      (abandoned name body).run d = some d

def AllReleased : Prog α → Prop
  | skip => True
  | write _ => True
  | seq p q => p.AllReleased ∧ q.AllReleased
  | released _ body after => body.AllReleased ∧ after.AllReleased
  | abandoned _ _ => False

end Prog

@[simp] theorem sameName_self (n : String) : sameName n n = true := by simp [sameName]

namespace Db

@[simp] theorem release_savepoint (n : String) (a : α) (d : Db α) :
    release n ⟨a, (d.savepoint n).stack⟩ = some ⟨a, d.stack⟩ := by
  simp [release, upTo, savepoint]

/-- A savepoint on the stack is found, or a later one of the same name is. -/
theorem upTo_of_suffix {n : String} {a : α} {s : List (String × α)} {d : Db α}
    (h : (n, a) :: s <:+ d.stack) : ∃ q rest, d.upTo n = q :: rest ∧ s <:+ rest := by
  obtain ⟨later, hstack⟩ := h
  unfold upTo
  rw [← hstack]
  clear hstack
  induction later with
  | nil => exact ⟨(n, a), s, by simp, List.suffix_rfl⟩
  | cons p later ih =>
    by_cases hp : sameName n p.1 = true
    · refine ⟨p, later ++ (n, a) :: s, by simp [hp], ?_⟩
      exact (List.suffix_cons _ _).trans (List.suffix_append _ _)
    · obtain ⟨q, rest, hq, hsuf⟩ := ih
      exact ⟨q, rest, by simpa [hp] using hq, hsuf⟩

end Db

namespace Prog

variable {p : Prog α} {d : Db α}

/-- No program fails: the savepoint of a scope, or one of that name from an inner scope, is
there when the scope is left, and the savepoints from before the scope stay. -/
theorem run_stack (p : Prog α) (d : Db α) : ∃ d', p.run d = some d' ∧ d.stack <:+ d'.stack := by
  induction p generalizing d with
  | skip => exact ⟨d, rfl, List.suffix_rfl⟩
  | write f => exact ⟨_, rfl, List.suffix_rfl⟩
  | seq p q ihp ihq =>
    obtain ⟨d₁, h₁, hs₁⟩ := ihp d
    obtain ⟨d₂, h₂, hs₂⟩ := ihq d₁
    exact ⟨d₂, by rw [run, h₁, Option.bind_some, h₂], hs₁.trans hs₂⟩
  | released name body after ihb iha =>
    obtain ⟨d₁, h₁, hs₁⟩ := ihb (d.savepoint (name.getD defaultName))
    obtain ⟨q, rest, hup, hrest⟩ := Db.upTo_of_suffix hs₁
    have hrel : d₁.release (name.getD defaultName) = some { d₁ with stack := rest } := by
      simp [Db.release, hup]
    obtain ⟨d₂, h₂, hs₂⟩ := iha { d₁ with stack := rest }
    refine ⟨d₂, ?_, hrest.trans hs₂⟩
    simp [run, ScopedSavepoint.construct, h₁, ScopedSavepoint.release, hrel, h₂,
      ScopedSavepoint.destroy]
  | abandoned name body ih =>
    obtain ⟨d₁, h₁, hs₁⟩ := ih (d.savepoint (name.getD defaultName))
    obtain ⟨q, rest, hup, hrest⟩ := Db.upTo_of_suffix hs₁
    refine ⟨⟨q.2, q :: rest⟩, ?_, hrest.trans (List.suffix_cons _ _)⟩
    simp [run, ScopedSavepoint.construct, h₁, ScopedSavepoint.destroy, Db.rollbackTo, hup]

/-- A transaction that is not committed changes nothing, whatever its scopes do. -/
theorem transaction_rollback (p : Prog α) (a : α) : p.transaction false a = some a := by
  obtain ⟨d, hd, -⟩ := run_stack p ⟨a, []⟩
  simp [transaction, hd]

/-- Where no scope is abandoned the program does what it is meant to do. -/
theorem run_allReleased (hp : p.AllReleased) (d : Db α) :
    p.run d = some ⟨p.effect d.cur, d.stack⟩ := by
  induction p generalizing d with
  | skip => rfl
  | write f => rfl
  | seq p q ihp ihq =>
    simp only [run, ihp hp.1, Option.bind_some, ihq hp.2, effect]
  | released name body after ihb iha =>
    simp only [run, ScopedSavepoint.construct, ihb hp.1, Option.bind_some,
      ScopedSavepoint.release, Db.release_savepoint, Option.map_some, iha hp.2,
      ScopedSavepoint.destroy]
    rfl
  | abandoned name body => exact hp.elim

theorem transaction_commit (hp : p.AllReleased) (a : α) :
    p.transaction true a = some (p.effect a) := by
  simp [transaction, run_allReleased hp]

theorem nests_allReleased (hp : p.AllReleased) (d : Db α) : p.Nests d := by
  induction p generalizing d with
  | skip => trivial
  | write f => trivial
  | seq p q ihp ihq => exact ⟨ihp hp.1 d, fun d' _ => ihq hp.2 d'⟩
  | released name body after ihb iha =>
    exact ⟨ihb hp.1 _, fun _ d₂ _ _ => iha hp.2 d₂, run_allReleased hp d⟩
  | abandoned name body => exact hp.elim

theorem allReleased_of_nests (h : p.Nests d) : p.AllReleased := by
  induction p generalizing d with
  | skip => trivial
  | write f => trivial
  | seq p q ihp ihq =>
    have hp := ihp h.1
    exact ⟨hp, ihq (h.2 _ (run_allReleased hp d))⟩
  | released name body after ihb iha =>
    obtain ⟨hbody, hafter, -⟩ := h
    have hb := ihb hbody
    refine ⟨hb, ?_⟩
    refine iha (hafter _ _ (run_allReleased hb _) (Db.release_savepoint _ _ d))
  | abandoned name body ih =>
    obtain ⟨hbody, hrun⟩ := h
    -- the body leaves the savepoint of the scope on the stack, and `ROLLBACK TO` keeps it
    simp only [run, ScopedSavepoint.construct, run_allReleased (ih hbody), Option.bind_some,
      ScopedSavepoint.destroy, Bool.not_false, if_true] at hrun
    have hstack := congrArg (Option.map Db.stack) hrun
    simp [Db.rollbackTo, Db.upTo, Db.savepoint] at hstack

/-- Scopes nest in exactly the programs that abandon none. -/
theorem nests_iff (p : Prog α) (d : Db α) : p.Nests d ↔ p.AllReleased :=
  ⟨allReleased_of_nests, fun hp => nests_allReleased hp d⟩

/-- An abandoned scope in an abandoned scope of the same name: the outer one rolls back to the
savepoint of the inner one, and its write stays. -/
theorem not_nests : ¬ (abandoned none (seq (write fun n : ℕ => n + 1) (abandoned none skip))).Nests
    ⟨0, []⟩ := by
  rintro ⟨-, hrun⟩
  have hcur := congrArg (Option.map Db.cur) hrun
  simp [run, ScopedSavepoint.construct, ScopedSavepoint.destroy, Db.rollbackTo, Db.upTo,
    Db.savepoint] at hcur

end Prog

end Jkl.Sqlite
