import Mathlib.Tactic

/-!
# The free-list object pool

Storage addressed by 32-bit handles. A freed handle goes on a stack and is handed out again before
the storage grows; a handle into grown storage is its position cast to 32 bits.
-/

namespace HftOrderbook

abbrev Handle := UInt32

/-- `freed` has the back of `free_` first, the end both `alloc` and `free` work on. -/
structure ObjectPool (α : Type) where
  slots : List α := []
  freed : List Handle := []

namespace ObjectPool

variable {α : Type} [Inhabited α]

def alloc (pool : ObjectPool α) : Handle × ObjectPool α :=
  match pool.freed with
  | h :: rest => (h, { pool with freed := rest })
  | [] => (UInt32.ofNat pool.slots.length, { pool with slots := pool.slots ++ [default] })

def free (pool : ObjectPool α) (h : Handle) : ObjectPool α :=
  { pool with freed := h :: pool.freed }

def get (pool : ObjectPool α) (h : Handle) : α := pool.slots.getD h.toNat default

def set (pool : ObjectPool α) (h : Handle) (value : α) : ObjectPool α :=
  { pool with slots := pool.slots.set h.toNat value }

def live (pool : ObjectPool α) : Nat := pool.slots.length - pool.freed.length

def capacity (pool : ObjectPool α) : Nat := pool.slots.length

end ObjectPool

end HftOrderbook
