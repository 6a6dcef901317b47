import Mathlib.Data.List.Basic

/-!
# Writing values to a stream and reading them back

A writer appends words to a stream, a reader takes words off its front and may
fail.  A codec is a writer and a reader of one kind of value that fit: a read
right after the write gives the value and leaves the rest alone.  So a sequence
of reads undoes a sequence of writes one value at a time (`run_read_bind`), and
what hand-written writers and readers do to each other follows by rewriting.
-/

namespace Codec

variable {ω V U : Type}

/-- A computation that takes words off the front of a stream. -/
abbrev Reader (ω : Type) : Type → Type := StateT (List ω) Option

end Codec

/-- How values of `V` are kept in a stream of words. -/
structure Codec (ω V : Type) where
  write : V → List ω
  read : Codec.Reader ω V
  read_write : ∀ v rest, read.run (write v ++ rest) = some (v, rest)

namespace Codec

variable {ω V U : Type}

/-- A read goes on with the value that was written and what comes after it. -/
@[simp] theorem run_read_bind (c : Codec ω V) (k : V → Reader ω U) (v : V) (rest : List ω) :
    (c.read >>= k).run (c.write v ++ rest) = (k v).run rest := by
  rw [StateT.run_bind, c.read_write]
  rfl

/-- Values kept as one word each: a partial inverse tells them from the words
of other kinds. -/
def ofWord (word : V → ω) (value : ω → Option V) (h : ∀ v, value (word v) = some v) :
    Codec ω V where
  write v := [word v]
  read := fun
    | [] => none
    | w :: rest => (value w).map (·, rest)
  read_write v rest := by
    change (value (word v)).map (·, rest) = _
    rw [h]
    rfl

end Codec
