import HftOrderbook.Core.Levels
import HftOrderbook.Library.LowerBound

/-!
# The tree store and the sorted-vector store

`MapLevels` keeps its levels in an ordered map and `FlatLevels` in a sorted vector that it searches
by bisection. After the same calls, wrapping or not, the vector is the list of the map's entries.
-/

namespace HftOrderbook

open LowerBound

/-! ### Totals in an ordered map -/

/-- `std::map<Price, Qty, Compare>`, the form every totalling map of the source has. -/
abbrev LevelMap (c : Compare) := OrderedMap Price Qty c.lt

namespace LevelMap

variable {c : Compare}

/-- `m[p] += q`: a missing price is default-inserted at zero first. -/
def addAt (m : LevelMap c) (p : Price) (q : Qty) : LevelMap c :=
  m.insert p ((m.find? p).getD 0 + q)

/-- `it != m.end() && (it->second -= q) == 0` erases; an unknown price is left alone. -/
def subAt (m : LevelMap c) (p : Price) (q : Qty) : LevelMap c :=
  match m.find? p with
  | none => m
  | some old => if old - q = 0 then m.erase p else m.insert p (old - q)

/-- The map holds an entry for each price with a total, and no entry at zero. -/
structure Represents (m : LevelMap c) (t : Totals) : Prop where
  fits : t.Fits
  find? : ∀ p, m.find? p = if t p = 0 then none else some (UInt32.ofNat (t p))

variable {m : LevelMap c} {t : Totals}

theorem represents_empty : Represents (OrderedMap.empty : LevelMap c) fun _ => 0 :=
  ⟨fun _ => by norm_num, fun p => by simp⟩

namespace Represents

theorem find?_getD (h : Represents m t) (p : Price) :
    (m.find? p).getD 0 = UInt32.ofNat (t p) := by
  rw [h.find?]
  split_ifs with hzero
  · simp [hzero]
  · rfl

theorem addAt (h : Represents m t) {p : Price} {q : Qty} (hq : q ≠ 0)
    (hfit : t p + q.toNat < 2 ^ 32) : Represents (m.addAt p q) (t.inc p q.toNat) := by
  refine ⟨h.fits.inc hfit, fun p' => ?_⟩
  have hpos : t p + q.toNat ≠ 0 := by
    have : q.toNat ≠ 0 := fun hzero => hq (UInt32.toNat_inj.mp hzero)
    omega
  rw [LevelMap.addAt, OrderedMap.find?_insert, h.find?_getD, Totals.inc_apply]
  by_cases hp : p' = p
  · rw [if_pos hp, if_pos hp, if_neg hpos, UInt32.ofNat_add, UInt32.ofNat_toNat]
  · rw [if_neg hp, if_neg hp, h.find?]

theorem subAt (h : Represents m t) {p : Price} {q : Qty} (hq : q.toNat ≤ t p) :
    Represents (m.subAt p q) (t.dec p q.toNat) := by
  refine ⟨h.fits.dec p _, fun p' => ?_⟩
  rw [LevelMap.subAt, h.find?, Totals.dec_apply]
  by_cases hzero : t p = 0
  · rw [if_pos hzero]
    by_cases hp : p' = p
    · subst hp
      simp [h.find?, hzero]
    · simp [h.find?, hp]
  · have hsub : UInt32.ofNat (t p) - q = UInt32.ofNat (t p - q.toNat) := by
      rw [UInt32.ofNat_sub hq, UInt32.ofNat_toNat]
    have hlt : t p - q.toNat < 2 ^ 32 := (Nat.sub_le _ _).trans_lt (h.fits p)
    have hiff : UInt32.ofNat (t p - q.toNat) = 0 ↔ t p - q.toNat = 0 := by
      rw [← UInt32.toNat_inj, UInt32.toNat_ofNat_of_lt' hlt]
      rfl
    simp only [if_neg hzero, hsub, hiff]
    by_cases hempty : t p - q.toNat = 0
    · rw [if_pos hempty, OrderedMap.find?_erase]
      split_ifs <;> simp_all [h.find?]
    · rw [if_neg hempty, OrderedMap.find?_insert]
      split_ifs <;> simp_all [h.find?]

theorem isLadder (h : Represents m t) : IsLadder c t m.entries := by
  refine ⟨m.sorted, fun p q => ?_⟩
  rw [← OrderedMap.find?_eq_some_iff_mem, h.find?]
  have htoNat := UInt32.toNat_ofNat_of_lt' (h.fits p)
  split_ifs with hzero
  · simp [hzero]
  · rw [Option.some.injEq, ← UInt32.toNat_inj, htoNat]
    exact ⟨fun heq => ⟨heq.symm, hzero⟩, fun heq => heq.1.symm⟩

end Represents

end LevelMap

/-! ### `MapLevels` -/

structure MapLevels (c : Compare) where
  m : LevelMap c

namespace MapLevels

variable {c : Compare}

def inc (s : MapLevels c) (p : Price) (q : Qty) : MapLevels c := ⟨s.m.addAt p q⟩

def dec (s : MapLevels c) (p : Price) (q : Qty) : MapLevels c := ⟨s.m.subAt p q⟩

def best (s : MapLevels c) : Option (Price × Qty) := s.m.entries.head?

def atPrice (s : MapLevels c) (p : Price) : Qty := (s.m.find? p).getD 0

def size (s : MapLevels c) : Nat := s.m.size

def top (s : MapLevels c) (n : Nat) : List (Price × Qty) := s.m.entries.take n

end MapLevels

instance : LevelStore MapLevels where
  empty _ := ⟨OrderedMap.empty⟩
  inc := MapLevels.inc
  dec := MapLevels.dec
  best := MapLevels.best
  atPrice := MapLevels.atPrice
  size := MapLevels.size
  top := MapLevels.top

theorem MapLevels.answers {c : Compare} {s : MapLevels c} {t : Totals} (h : s.m.Represents t) :
    Answers s t s.m.entries where
  fits := h.fits
  ladder := h.isLadder
  atPrice p := by
    change ((s.m.find? p).getD 0).toNat = t p
    rw [h.find?_getD, UInt32.toNat_ofNat_of_lt' (h.fits p)]
  size := rfl
  best := rfl
  top _ := rfl

instance : LawfulLevelStore MapLevels fun _ => True where
  Represents s t := s.m.Represents t
  empty _ := LevelMap.represents_empty
  inc h _ hq hfit := h.addAt hq hfit
  dec h hq := h.subAt hq
  answers h := ⟨_, MapLevels.answers h⟩

/-! ### `FlatLevels` -/

structure FlatLevels (c : Compare) where
  v : List (Price × Qty)

namespace FlatLevels

variable {c : Compare}

/-- `std::lower_bound` with `cmp_` on the prices: the position of `p`, or where it belongs. -/
def find (s : FlatLevels c) (p : Price) : Nat := lowerBound (fun a => decide (c.lt a.1 p)) s.v

def inc (s : FlatLevels c) (p : Price) (q : Qty) : FlatLevels c :=
  match s.v[s.find p]? with
  | some e => if e.1 = p then ⟨s.v.set (s.find p) (p, e.2 + q)⟩
      else ⟨s.v.insertIdx (s.find p) (p, q)⟩
  | none => ⟨s.v.insertIdx (s.find p) (p, q)⟩

def dec (s : FlatLevels c) (p : Price) (q : Qty) : FlatLevels c :=
  match s.v[s.find p]? with
  | some e =>
      if e.1 = p then
        if e.2 - q = 0 then ⟨s.v.eraseIdx (s.find p)⟩ else ⟨s.v.set (s.find p) (p, e.2 - q)⟩
      else s
  | none => s

def best (s : FlatLevels c) : Option (Price × Qty) := s.v.head?

def atPrice (s : FlatLevels c) (p : Price) : Qty :=
  match s.v[s.find p]? with
  | some e => if e.1 = p then e.2 else 0
  | none => 0

def size (s : FlatLevels c) : Nat := s.v.length

def top (s : FlatLevels c) (n : Nat) : List (Price × Qty) := s.v.take n

end FlatLevels

instance : LevelStore FlatLevels where
  empty _ := ⟨[]⟩
  inc := FlatLevels.inc
  dec := FlatLevels.dec
  best := FlatLevels.best
  atPrice := FlatLevels.atPrice
  size := FlatLevels.size
  top := FlatLevels.top

namespace FlatLevels

variable {c : Compare}

theorem find?_eq_none_of_gap {m : OrderedMap Price Qty c.lt} {p : Price}
    {xs ys : List (Price × Qty)} (hsplit : m.entries = xs ++ ys) (hxs : ∀ x ∈ xs, c.lt x.1 p)
    (hys : ∀ y ∈ ys, c.lt p y.1) : m.find? p = none := by
  rw [Option.eq_none_iff_forall_not_mem]
  intro q hq
  have hmem := OrderedMap.find?_eq_some_iff_mem.mp hq
  rw [hsplit, List.mem_append] at hmem
  rcases hmem with hmem | hmem
  · exact irrefl p (hxs _ hmem)
  · exact irrefl p (hys _ hmem)

/-- What bisection finds in a sorted vector, and what an insertion or an erasure at that price does
there: everything before the position is better than `p`, and either `p` stands at it or `p` is
missing and belongs there. -/
theorem find_cases (m : OrderedMap Price Qty c.lt) (p : Price) :
    ∃ xs, (FlatLevels.mk m.entries : FlatLevels c).find p = xs.length ∧
      ((∃ q rest, m.entries = xs ++ (p, q) :: rest ∧ m.find? p = some q ∧
          (∀ v, (m.insert p v).entries = xs ++ (p, v) :: rest) ∧
          (m.erase p).entries = xs ++ rest) ∨
        ∃ ys, m.entries = xs ++ ys ∧ (∀ e, ys.head? = some e → e.1 ≠ p) ∧ m.find? p = none ∧
          ∀ v, (m.insert p v).entries = xs ++ (p, v) :: ys) := by
  obtain ⟨xs, ys, hsplit, hxs, hys⟩ := exists_split (fun a => decide (c.lt a.1 p)) m.sorted
    (fun a b hab hb => by simpa using trans_of c.lt hab (by simpa using hb))
  have hfind : (FlatLevels.mk m.entries : FlatLevels c).find p = xs.length := by
    rw [find, hsplit]
    exact lowerBound_eq_length hxs hys
  replace hxs : ∀ x ∈ xs, c.lt x.1 p := fun x hx => by simpa using hxs x hx
  replace hys : ∀ y ∈ ys, ¬ c.lt y.1 p := fun y hy => by simpa using hys y hy
  have hsorted := m.sorted
  rw [hsplit, List.pairwise_append] at hsorted
  have hinsert : ∀ v, (m.insert p v).entries = xs ++ OrderedMap.insertEntry c.lt p v ys := by
    intro v
    change OrderedMap.insertEntry c.lt p v m.entries = _
    rw [hsplit, OrderedMap.insertEntry_append hxs]
  refine ⟨xs, hfind, ?_⟩
  cases ys with
  | nil =>
      exact Or.inr ⟨[], hsplit, by simp, find?_eq_none_of_gap hsplit hxs (by simp), hinsert⟩
  | cons e rest =>
      have hrest := (List.pairwise_cons.mp hsorted.2.1).1
      by_cases he : e.1 = p
      · obtain ⟨_, q⟩ := e
        subst he
        refine Or.inl ⟨q, rest, hsplit, ?_, fun v => ?_, ?_⟩
        · rw [OrderedMap.find?_eq_some_iff_mem, hsplit]
          simp
        · rw [hinsert, OrderedMap.insertEntry, if_neg (irrefl _), if_pos rfl]
        · change OrderedMap.eraseEntry _ m.entries = _
          rw [hsplit, OrderedMap.eraseEntry, List.filter_append, List.filter_cons]
          have hleft := OrderedMap.eraseEntry_eq_self (l := xs) fun x hx => Or.inl (hxs x hx)
          have hright := OrderedMap.eraseEntry_eq_self (l := rest) fun x hx => Or.inr (hrest x hx)
          simp only [OrderedMap.eraseEntry] at hleft hright
          rw [hleft, hright]
          simp
      · have hlt : c.lt p e.1 :=
          ((trichotomous_of c.lt p e.1).resolve_right
            (by rintro (h | h); exacts [he h.symm, hys e List.mem_cons_self h]))
        have hbehind : ∀ y ∈ e :: rest, c.lt p y.1 := by
          intro y hy
          rcases List.mem_cons.mp hy with rfl | hy
          · exact hlt
          · exact trans_of c.lt hlt (hrest y hy)
        refine Or.inr ⟨e :: rest, hsplit, by simp [he],
          find?_eq_none_of_gap hsplit hxs hbehind, fun v => ?_⟩
        rw [hinsert, OrderedMap.insertEntry, if_pos hlt]

def Mirrors (s : FlatLevels c) (m : MapLevels c) : Prop := s.v = m.m.entries

theorem Mirrors.inc {s : FlatLevels c} {m : MapLevels c} (h : Mirrors s m) (p : Price) (q : Qty) :
    Mirrors (s.inc p q) (m.inc p q) := by
  obtain ⟨v⟩ := s
  obtain rfl : v = m.m.entries := h
  unfold Mirrors FlatLevels.inc MapLevels.inc LevelMap.addAt
  obtain ⟨xs, hfind, ⟨old, rest, hentries, hlookup, hinsert, -⟩ |
    ⟨ys, hentries, hhead, hlookup, hinsert⟩⟩ := find_cases m.m p
  · simp only [hfind, hlookup, hinsert]
    simp [hentries]
  · simp only [hfind, hlookup, hinsert]
    cases ys with
    | nil => simp [hentries]
    | cons e rest =>
        have he : e.1 ≠ p := hhead e rfl
        simp [hentries, he, insertIdx_length_append]

theorem Mirrors.dec {s : FlatLevels c} {m : MapLevels c} (h : Mirrors s m) (p : Price) (q : Qty) :
    Mirrors (s.dec p q) (m.dec p q) := by
  obtain ⟨v⟩ := s
  obtain rfl : v = m.m.entries := h
  unfold Mirrors FlatLevels.dec MapLevels.dec LevelMap.subAt
  obtain ⟨xs, hfind, ⟨old, rest, hentries, hlookup, hinsert, herase⟩ |
    ⟨ys, hentries, hhead, hlookup, -⟩⟩ := find_cases m.m p
  · simp only [hfind, hlookup]
    split_ifs with hzero
    · rw [herase]
      simp [hentries, hzero, List.eraseIdx_append]
    · rw [hinsert]
      simp [hentries, hzero]
  · simp only [hfind, hlookup]
    cases ys with
    | nil => simp [hentries]
    | cons e rest =>
        have he : e.1 ≠ p := hhead e rfl
        simp [hentries, he]

theorem Mirrors.atPrice {s : FlatLevels c} {m : MapLevels c} (h : Mirrors s m) (p : Price) :
    s.atPrice p = m.atPrice p := by
  obtain ⟨v⟩ := s
  obtain rfl : v = m.m.entries := h
  unfold FlatLevels.atPrice MapLevels.atPrice
  obtain ⟨xs, hfind, ⟨old, rest, hentries, hlookup, -, -⟩ |
    ⟨ys, hentries, hhead, hlookup, -⟩⟩ := find_cases m.m p
  · simp only [hfind, hlookup]
    simp [hentries]
  · simp only [hfind, hlookup]
    cases ys with
    | nil => simp [hentries]
    | cons e rest =>
        have he : e.1 ≠ p := hhead e rfl
        simp [hentries, he]

end FlatLevels

instance : LawfulLevelStore FlatLevels fun _ => True where
  Represents s t := ∃ m : MapLevels _, FlatLevels.Mirrors s m ∧ m.m.Represents t
  empty c := ⟨LevelStore.empty c, rfl, LevelMap.represents_empty⟩
  inc := by
    rintro c s t p q ⟨m, hmirror, hm⟩ - hq hfit
    exact ⟨m.inc p q, hmirror.inc p q, hm.addAt hq hfit⟩
  dec := by
    rintro c s t p q ⟨m, hmirror, hm⟩ hq
    exact ⟨m.dec p q, hmirror.dec p q, hm.subAt hq⟩
  answers := by
    rintro c s t ⟨m, hmirror, hm⟩
    have hanswers := MapLevels.answers hm
    refine ⟨m.m.entries, hanswers.fits, hanswers.ladder, fun p => ?_, ?_, ?_, fun n => ?_⟩
    · exact (congrArg UInt32.toNat (hmirror.atPrice p)).trans (hanswers.atPrice p)
    · exact congrArg List.length hmirror
    · exact congrArg List.head? hmirror
    · exact congrArg (List.take n) hmirror

end HftOrderbook
