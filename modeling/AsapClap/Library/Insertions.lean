import Mathlib.Data.List.Induction
import Mathlib.Data.List.Perm.Basic

/-!
# AsapClap.Library.Insertions

Lists that grow at both ends: what is added goes in front of what is there or behind it.
Lists that grow in step are best seen as projections of a single one (`map_insert`), whose
entries then say what they have in common; and whatever the order, it has every item once
for each time it was added (`perm_assemble`).
-/

namespace Insertions

variable {α β : Type}

/-- What is added at once, and at which end. -/
structure Chunk (α : Type) where
  inFront : Bool
  items : List α

def Chunk.map (f : α → β) (chunk : Chunk α) : Chunk β :=
  { inFront := chunk.inFront, items := chunk.items.map f }

/-- Put the items of a chunk in front of a list, or behind it. -/
def insert (l : List α) (chunk : Chunk α) : List α :=
  if chunk.inFront then chunk.items ++ l else l ++ chunk.items

/-- The list that grows from nothing. -/
def assemble (chunks : List (Chunk α)) : List α := chunks.foldl insert []

@[simp] theorem insert_nil (l : List α) (inFront : Bool) :
    insert l { inFront, items := [] } = l := by
  cases inFront
  · exact List.append_nil l
  · rfl

/-- A chunk is inserted into a projection as its own projection. -/
theorem map_insert (f : α → β) (l : List α) (chunk : Chunk α) :
    (insert l chunk).map f = insert (l.map f) (chunk.map f) := by
  rw [insert, insert, Chunk.map]
  split <;> exact List.map_append

/-- In whatever order, all the items are there. -/
theorem perm_insert (l : List α) (chunk : Chunk α) : (insert l chunk).Perm (l ++ chunk.items) := by
  rw [insert]
  split
  · exact List.perm_append_comm
  · exact List.Perm.refl _

/-- The last chunk goes in last. -/
theorem assemble_append_singleton (chunks : List (Chunk α)) (chunk : Chunk α) :
    assemble (chunks ++ [chunk]) = insert (assemble chunks) chunk := List.foldl_append

/-- The list has what was added, each item once for each time. -/
theorem perm_assemble (chunks : List (Chunk α)) :
    (assemble chunks).Perm (chunks.flatMap Chunk.items) := by
  induction chunks using List.reverseRecOn with
  | nil => exact List.Perm.refl _
  | append_singleton chunks chunk ih =>
      rw [assemble_append_singleton, List.flatMap_append, List.flatMap_singleton]
      exact (perm_insert _ chunk).trans (ih.append_right _)

end Insertions
