import HftOrderbook.Core.FlatLevels

/-!
# The windowed store

Levels within `kWindow` ticks of `base` sit in an array indexed by price, the rest spill into an
ordered map, and the array is re-based when the inside of the book leaves it. Every access to the
array is checked: an operation is `none` exactly when the source would index outside `slots_`.
-/

namespace HftOrderbook

def kWindow : Nat := 65536

structure WindowedLevels (c : Compare) where
  slots : List Qty := []
  overflow : LevelMap c := .empty
  base : Price := 0
  bestIdx : Nat := 0
  count : Nat := 0
  hasBase : Bool := false

namespace WindowedLevels

variable {c : Compare}

def InWindow (w : WindowedLevels c) (p : Price) : Prop :=
  w.hasBase = true ∧ w.base ≤ p ∧ p - w.base < kWindow

instance (w : WindowedLevels c) (p : Price) : Decidable (w.InWindow p) :=
  inferInstanceAs (Decidable (_ ∧ _ ∧ _))

/-- `static_cast<std::size_t>(p - base_)`. -/
def index (w : WindowedLevels c) (p : Price) : Nat := ((p - w.base) % 2 ^ 64).toNat

def windowBestPrice (w : WindowedLevels c) : Price := w.base + w.bestIdx

/-- The best price across window and overflow; there is none to read when both are empty. -/
def bestPrice (w : WindowedLevels c) : Option Price :=
  if w.count = 0 then w.overflow.entries.head?.map Prod.fst
  else
    match w.overflow.entries.head? with
    | none => some w.windowBestPrice
    | some e => if c.lt e.1 w.windowBestPrice then some e.1 else some w.windowBestPrice

/-- The downward half of the slot walk: the next non-empty slot strictly below `i`. -/
def prevSlot (slots : List Qty) : Nat → Option (Option Nat)
  | 0 => some none
  | i + 1 =>
      match slots[i]? with
      | none => none
      | some q => if q ≠ 0 then some (some i) else prevSlot slots i

def succSlot (slots : List Qty) (i : Nat) : Option (Option Nat) :=
  if _hend : slots.length ≤ i + 1 then some none
  else
    match slots[i + 1]? with
    | none => none
    | some q => if q ≠ 0 then some (some (i + 1)) else succSlot slots (i + 1)
termination_by slots.length - i

/-- `high_first`: bids walk their slots from the high index down. -/
def highFirst (c : Compare) : Bool := decide (c.lt 1 0)

/-- The next non-empty slot in `Compare` order, `some none` when there is none. -/
def nextWindowIdx (w : WindowedLevels c) (i : Nat) : Option (Option Nat) :=
  if highFirst c then prevSlot w.slots i else succSlot w.slots i

def placeInWindow (w : WindowedLevels c) (p : Price) (q : Qty) : Option (WindowedLevels c) :=
  match w.slots[w.index p]? with
  | none => none
  | some old =>
      if old = 0 then
        some { w with
          slots := w.slots.set (w.index p) (old + q)
          bestIdx := if w.count = 0 ∨ c.lt p w.windowBestPrice then w.index p else w.bestIdx
          count := w.count + 1 }
      else some { w with slots := w.slots.set (w.index p) (old + q) }

/-- The scan over every slot that `rescan_best` falls back to when the walk finds nothing. -/
def fullScan (w : WindowedLevels c) : Option (WindowedLevels c) :=
  if highFirst c then
    match prevSlot w.slots w.slots.length with
    | none => none
    | some found => some { w with bestIdx := found.getD w.bestIdx }
  else some { w with bestIdx := (w.slots.findIdx? (· ≠ 0)).getD w.bestIdx }

def rescanBest (w : WindowedLevels c) : Option (WindowedLevels c) :=
  if w.count = 0 then some { w with bestIdx := 0 }
  else
    match w.nextWindowIdx w.bestIdx with
    | none => none
    | some (some i) => some { w with bestIdx := i }
    | some none => w.fullScan

def windowEntries (w : WindowedLevels c) : List (Price × Qty) :=
  (List.range w.slots.length).filterMap fun i =>
    if w.slots.getD i 0 ≠ 0 then some (w.base + i, w.slots.getD i 0) else none

/-- The body of the re-bucketing loop. -/
def rebucket (w : WindowedLevels c) (e : Price × Qty) : Option (WindowedLevels c) :=
  if w.InWindow e.1 then w.placeInWindow e.1 e.2
  else some { w with overflow := w.overflow.addAt e.1 e.2 }

def recenterTo (w : WindowedLevels c) (center : Price) : Option (WindowedLevels c) :=
  let all := (if w.hasBase then w.windowEntries else []) ++ w.overflow.entries
  let newBase := center - (kWindow / 2 : Nat)
  all.foldlM rebucket
    { slots := List.replicate kWindow 0
      overflow := .empty
      base := if newBase < 0 then 0 else newBase
      bestIdx := 0
      count := 0
      hasBase := true }

def recenterAndPlace (w : WindowedLevels c) (p : Price) (q : Qty) : Option (WindowedLevels c) :=
  (w.recenterTo p).bind fun w' => w'.placeInWindow p q

def inc (w : WindowedLevels c) (p : Price) (q : Qty) : Option (WindowedLevels c) :=
  if q = 0 then some w
  else if w.hasBase = false then w.recenterAndPlace p q
  else if w.InWindow p then w.placeInWindow p q
  else if w.count = 0 ∧ w.overflow.entries = [] then w.recenterAndPlace p q
  else
    match w.bestPrice with
    | none => none
    | some bestPrice =>
        if c.lt p bestPrice then w.recenterAndPlace p q
        else some { w with overflow := w.overflow.addAt p q }

def dec (w : WindowedLevels c) (p : Price) (q : Qty) : Option (WindowedLevels c) :=
  if w.InWindow p then
    match w.slots[w.index p]? with
    | none => none
    | some old =>
        if old = 0 then some w
        else if old - q = 0 then
          let w' := { w with slots := w.slots.set (w.index p) 0, count := w.count - 1 }
          if w.index p = w.bestIdx then w'.rescanBest else some w'
        else some { w with slots := w.slots.set (w.index p) (old - q) }
  else some { w with overflow := w.overflow.subAt p q }

def best (w : WindowedLevels c) : Option (Option (Price × Qty)) :=
  if w.count = 0 then some w.overflow.entries.head?
  else
    match w.overflow.entries.head? with
    | none => (w.slots[w.bestIdx]?).map fun q => some (w.windowBestPrice, q)
    | some e =>
        if c.lt e.1 w.windowBestPrice then some (some e)
        else (w.slots[w.bestIdx]?).map fun q => some (w.windowBestPrice, q)

def atPrice (w : WindowedLevels c) (p : Price) : Option Qty :=
  if w.InWindow p then w.slots[w.index p]? else some ((w.overflow.find? p).getD 0)

def size (w : WindowedLevels c) : Nat := w.count + w.overflow.size

/-- The merge loop of `top`: `wi` is the window cursor, `none` once it has run out, and `of` is what
is left of the overflow. -/
def topLoop (w : WindowedLevels c) : Nat → Option Nat → List (Price × Qty) →
    Option (List (Price × Qty))
  | 0, _, _ => some []
  | _ + 1, none, [] => some []
  | n + 1, none, e :: of => (topLoop w n none of).map (e :: ·)
  | n + 1, some wi, [] => do
      let q ← w.slots[wi]?
      let next ← w.nextWindowIdx wi
      (topLoop w n next []).map ((w.base + wi, q) :: ·)
  | n + 1, some wi, e :: of =>
      if c.lt e.1 (w.base + wi) then (topLoop w n (some wi) of).map (e :: ·)
      else do
        let q ← w.slots[wi]?
        let next ← w.nextWindowIdx wi
        (topLoop w n next (e :: of)).map ((w.base + wi, q) :: ·)

def top (w : WindowedLevels c) (n : Nat) : Option (List (Price × Qty)) :=
  w.topLoop n (if 0 < w.count then some w.bestIdx else none) w.overflow.entries

end WindowedLevels

/-- A windowed store in a book: `none` once an access has left the array. -/
abbrev CheckedWindow (c : Compare) := Option (WindowedLevels c)

instance : LevelStore CheckedWindow where
  empty _ := some {}
  inc s p q := s.bind fun w => w.inc p q
  dec s p q := s.bind fun w => w.dec p q
  best s := (s.bind fun w => w.best).join
  atPrice s p := (s.bind fun w => w.atPrice p).getD 0
  size s := (s.map fun w => w.size).getD 0
  top s n := (s.bind fun w => w.top n).getD []

end HftOrderbook
