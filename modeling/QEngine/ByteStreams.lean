import QEngine.ByteFields

/-!
# Reading a stream of bytes

A stream is read item by item, and an item that is cut off ends the reading. Frames
are items of any length behind their length, up to the length 0.
-/

namespace QEngine.ByteStreams
open List ByteFields

def next (n : ℕ) (bs : Bytes) : Option (Bytes × Bytes) :=
  if bs.length < n then none else some (bs.take n, bs.drop n)

def nextWord (bs : Bytes) : Option (ℕ × Bytes) := (next 4 bs).map fun r => (leValue r.1, r.2)

theorem next_written (xs rest : Bytes) {n : ℕ} (hn : xs.length = n) :
    next n (xs++rest) = some (xs, rest) := by
  rw [next, if_neg (by rw [length_append]; omega), take_left' hn, drop_left' hn]

theorem nextWord_written {n : ℕ} (hn : n < 2^32) (rest : Bytes) :
    nextWord (leBytes 4 n++rest) = some (n, rest) := by
  rw [nextWord, next_written _ _ (leBytes_length 4 n), Option.map_some, leValue_leBytes 4 n (by omega)]

section Items
variable {α : Type*} (item : Bytes → Option (α × Bytes))

def nextItems : ℕ → Bytes → Option (List α × Bytes)
  | 0, bs => some ([], bs)
  | n+1, bs =>
    match item bs with
    | none => none
    | some (x, bs) => (nextItems n bs).map fun r => (x :: r.1, r.2)

theorem nextItems_written {write : α → Bytes} {xs : List α}
    (h : ∀ x ∈ xs, ∀ rest, item (write x++rest) = some (x, rest)) (rest : Bytes) :
    nextItems item xs.length (xs.flatMap write++rest) = some (xs, rest) := by
  induction xs with
  | nil => rfl
  | cons x xs ih =>
    have hx := h x mem_cons_self (xs.flatMap write++rest)
    have hxs := ih fun y hy => h y (mem_cons_of_mem _ hy)
    rw [flatMap_cons, append_assoc, length_cons, nextItems, hx]
    dsimp only
    rw [hxs]
    rfl

end Items

end QEngine.ByteStreams
