import Mathlib.Logic.Function.Basic

/-! Undo trails with nested scopes, and the data that closing the scopes gives back. -/

namespace Nixie.UndoTrail

open Function

variable {σ ε κ α : Type*}

def undoEach (undo : ε → σ → σ) (entries : List ε) (data : σ) : σ :=
  entries.foldl (fun data entry => undo entry data) data

/-- Entries recorded since the trail had a given length; a trail lists its newest entry first. -/
def above (limit : Nat) (trail : List ε) : List ε := trail.take (trail.length - limit)

/-- Entries recorded before the trail had a given length. -/
def below (limit : Nat) (trail : List ε) : List ε := trail.drop (trail.length - limit)

@[simp] theorem undoEach_nil {undo : ε → σ → σ} {data : σ} : undoEach undo [] data = data := rfl

@[simp] theorem undoEach_cons {undo : ε → σ → σ} {entry : ε} {entries : List ε} {data : σ} :
    undoEach undo (entry :: entries) data = undoEach undo entries (undo entry data) := rfl

theorem above_cons {limit : Nat} {entry : ε} {trail : List ε} (within : limit ≤ trail.length) :
    above limit (entry :: trail) = entry :: above limit trail := by
  -- One more entry is taken, and it is the new one.
  have count : (entry :: trail).length - limit = (trail.length - limit) + 1 := by
    rw [List.length_cons]
    omega
  rw [above, count, List.take_succ_cons]
  rfl

theorem below_cons {limit : Nat} {entry : ε} {trail : List ε} (within : limit ≤ trail.length) :
    below limit (entry :: trail) = below limit trail := by
  -- One more entry is dropped, and it is the new one.
  have count : (entry :: trail).length - limit = (trail.length - limit) + 1 := by
    rw [List.length_cons]
    omega
  rw [below, count, List.drop_succ_cons]
  rfl

@[simp] theorem above_length {trail : List ε} : above trail.length trail = [] := by simp [above]

@[simp] theorem below_length {trail : List ε} : below trail.length trail = trail := by simp [below]

theorem undoEach_comm {undo : ε → σ → σ} {cut : σ → σ}
    (comm : ∀ entry data, undo entry (cut data) = cut (undo entry data)) (entries : List ε)
    (data : σ) : undoEach undo entries (cut data) = cut (undoEach undo entries data) := by
  -- The cut moves out of one undo after the other.
  induction entries generalizing data with
  | nil => rfl
  | cons entry rest ih =>
    rw [undoEach_cons, comm, ih]
    rfl

/-- Closing the open scopes one after the other gives back the data saved when each was opened;
a cut drops what an undo leaves of entries created inside the scope. -/
def Saved (undo : ε → σ → σ) (cut : κ → σ → σ) : List Nat → List ε → σ → List (κ × σ) → Prop
  | _, _, _, [] => True
  | [], _, _, _ :: _ => False
  | limit :: limits, trail, data, (size, saved) :: older =>
    limit ≤ trail.length ∧ cut size (undoEach undo (above limit trail) data) = saved ∧
      Saved undo cut limits (below limit trail) saved older

section

variable {undo : ε → σ → σ} {cut : κ → σ → σ} {limits : List Nat} {trail : List ε} {data : σ}
  {saved : List (κ × σ)}

theorem Saved.record {entry : ε} {changed : σ} (restores : undo entry changed = data)
    (kept : Saved undo cut limits trail data saved) :
    Saved undo cut limits (entry :: trail) changed saved := by
  -- Only the innermost scope sees the new entry, and it undoes that entry first.
  cases saved with
  | nil => cases limits <;> trivial
  | cons scope older =>
    cases limits with
    | nil => exact kept.elim
    | cons limit limits =>
      obtain ⟨within, gives, rest⟩ := kept
      refine ⟨Nat.le_succ_of_le within, ?_, ?_⟩
      · rw [above_cons within, undoEach_cons, restores, gives]
      · rw [below_cons within]
        exact rest

theorem Saved.exchange {changed : σ}
    (same : ∀ limit size, (∃ data, (size, data) ∈ saved) → limit ∈ limits →
      cut size (undoEach undo (above limit trail) changed) =
        cut size (undoEach undo (above limit trail) data))
    (kept : Saved undo cut limits trail data saved) :
    Saved undo cut limits trail changed saved := by
  -- Only the innermost scope reads the current data.
  cases saved with
  | nil => cases limits <;> trivial
  | cons scope older =>
    cases limits with
    | nil => exact kept.elim
    | cons limit limits =>
      obtain ⟨within, gives, rest⟩ := kept
      have swapped := same limit scope.1 ⟨scope.2, by simp⟩ (by simp)
      exact ⟨within, swapped.trans gives, rest⟩

theorem Saved.mark {size : κ} (whole : cut size data = data)
    (kept : Saved undo cut limits trail data saved) :
    Saved undo cut (trail.length :: limits) trail data ((size, data) :: saved) := by
  -- Nothing was recorded yet above the new limit.
  refine ⟨Nat.le_refl _, ?_, ?_⟩
  · simpa using whole
  · simpa using kept

theorem Saved.close {limit : Nat} {size : κ} {before : σ} {older : List (κ × σ)}
    (kept : Saved undo cut (limit :: limits) trail data ((size, before) :: older)) :
    cut size (undoEach undo (above limit trail) data) = before ∧
      Saved undo cut limits (below limit trail) before older :=
  kept.2

end

/-- Lists by index that only grow by appends, each recorded while a scope is open. -/
structure AppendTable (α : Type*) where
  lists : Nat → List α
  /-- Indices appended to inside a scope, newest first. -/
  trail : List Nat
  /-- Trail length at each scope entry, innermost first. -/
  limits : List Nat

namespace AppendTable

def empty : AppendTable α where
  lists := fun _ => []
  trail := []
  limits := []

def append (table : AppendTable α) (index : Nat) (entry : α) : AppendTable α where
  lists := update table.lists index (table.lists index ++ [entry])
  -- Appends at the base level are permanent and need no record.
  trail := if table.limits = [] then table.trail else index :: table.trail
  limits := table.limits

def grow (table : AppendTable α) (index : Nat) : AppendTable α :=
  { table with lists := update table.lists index [] }

def mark (table : AppendTable α) : AppendTable α :=
  { table with limits := table.trail.length :: table.limits }

def undoAppend (index : Nat) (lists : Nat → List α) : Nat → List α :=
  update lists index (lists index).dropLast

def truncate (size : Nat) (lists : Nat → List α) : Nat → List α :=
  fun index => if index < size then lists index else []

/-- Close a scope that was opened with a given number of lists. -/
def rewind (size : Nat) (table : AppendTable α) : AppendTable α :=
  match table.limits with
  | [] => { table with lists := truncate size table.lists }
  | limit :: limits =>
    { lists := undoEach undoAppend (above limit table.trail) (truncate size table.lists)
      trail := below limit table.trail
      limits := limits }

theorem undoAppend_truncate (size index : Nat) (lists : Nat → List α) :
    undoAppend index (truncate size lists) = truncate size (undoAppend index lists) := by
  -- A dropped list is empty, and an empty list has no last entry.
  funext other
  by_cases same : other = index
  · subst same
    by_cases lies : other < size <;> simp [undoAppend, truncate, lies]
  · simp [undoAppend, truncate, same]

/-- The scopes of a table restore the saved lists. -/
structure Restores (table : AppendTable α) (saved : List (Nat × (Nat → List α))) : Prop where
  scopes : saved.length = table.limits.length
  kept : Saved undoAppend truncate table.limits table.trail table.lists saved

variable {table : AppendTable α} {saved : List (Nat × (Nat → List α))}

theorem Restores.append (restores : table.Restores saved) (index : Nat) (entry : α) :
    (table.append index entry).Restores saved := by
  refine ⟨restores.scopes, ?_⟩
  cases open_ : table.limits with
  | nil =>
    -- Without a scope there is nothing to restore.
    have none_ : saved = [] := List.length_eq_zero_iff.mp (by rw [restores.scopes, open_]; rfl)
    subst none_
    simp [append, open_, Saved]
  | cons limit limits =>
    have recorded : undoAppend index (table.append index entry).lists = table.lists := by
      funext other
      by_cases same : other = index <;> simp [undoAppend, AppendTable.append, same]
    have kept := restores.kept.record recorded
    simpa [AppendTable.append, open_] using kept

theorem Restores.grow {index : Nat} (restores : table.Restores saved)
    (beyond : ∀ scope ∈ saved, scope.1 ≤ index) : (table.grow index).Restores saved := by
  refine ⟨restores.scopes, restores.kept.exchange ?_⟩
  -- The cut of each scope drops the new list.
  intro limit size ⟨data, mem⟩ _
  rw [← undoEach_comm (undoAppend_truncate size), ← undoEach_comm (undoAppend_truncate size)]
  congr 1
  funext other
  by_cases lies : other < size
  · have ne : other ≠ index := by
      have := beyond _ mem
      omega
    simp [truncate, AppendTable.grow, ne]
  · simp [truncate, lies]

theorem Restores.mark {size : Nat} (restores : table.Restores saved)
    (empty : ∀ index, size ≤ index → table.lists index = []) :
    table.mark.Restores ((size, table.lists) :: saved) := by
  refine ⟨by simp [AppendTable.mark, restores.scopes], ?_⟩
  refine restores.kept.mark ?_
  funext index
  by_cases lies : index < size
  · simp [truncate, lies]
  · simp [truncate, lies, empty index (by omega)]

theorem Restores.rewind {size : Nat} {lists : Nat → List α} {older : List (Nat × (Nat → List α))}
    (restores : table.Restores ((size, lists) :: older)) :
    (table.rewind size).lists = lists ∧ (table.rewind size).Restores older := by
  cases open_ : table.limits with
  | nil =>
    have := restores.scopes
    simp [open_] at this
  | cons limit limits =>
    have kept := restores.kept
    rw [open_] at kept
    obtain ⟨gives, rest⟩ := kept.close
    have scopes := restores.scopes
    simp only [open_, List.length_cons, Nat.add_right_cancel_iff] at scopes
    -- The source drops the new lists first and undoes the appends then.
    have given : (table.rewind size).lists = lists := by
      rw [AppendTable.rewind, open_, ← gives, ← undoEach_comm (undoAppend_truncate size)]
    refine ⟨given, ?_, ?_⟩
    · rw [AppendTable.rewind, open_]
      exact scopes
    · rw [given]
      rw [AppendTable.rewind, open_]
      exact rest

end AppendTable

end Nixie.UndoTrail
