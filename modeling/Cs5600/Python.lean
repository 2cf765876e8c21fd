import Mathlib.Data.List.DropRight
import Mathlib.Data.List.Forall2
import Mathlib.Tactic.Common

/-!
# Python

What `read-img.py` and `gen-disk.py` need of their language: computations that may raise an
exception, `str.split`, the numbers that `int` reads, and the indices of lists. Digits other than
those of ASCII are not modelled.
-/

namespace Cs5600

/-- The exceptions of the scripts. -/
inductive PyError
  | assertion
  | attribute
  | index
  | key
  | recursion
  | type
  | unicode
  | value

namespace Py

/-! ## Computations that may raise an exception -/

section Raise

variable {α β : Type} {f : α → Except PyError β} {l : List α}

theorem bind_eq_ok {x : Except PyError α} {g : α → Except PyError β} {b : β} :
    x >>= g = .ok b ↔ ∃ a, x = .ok a ∧ g a = .ok b := by
  cases x with
  | error e => exact iff_of_false nofun fun ⟨_, h, _⟩ => nomatch h
  | ok a => exact ⟨fun h => ⟨a, rfl, h⟩, fun ⟨a', ha, h⟩ => Except.ok.inj ha ▸ h⟩

/-- What a `for` loop collects, if no step of it raises an exception. -/
theorem mapM_eq_ok {bs : List β} : l.mapM f = .ok bs ↔ l.map f = bs.map .ok := by
  induction l generalizing bs with
  | nil =>
    cases bs with
    | nil => exact iff_of_true rfl rfl
    | cons b bs => exact iff_of_false nofun nofun
  | cons a l ih =>
    rw [List.mapM_cons, bind_eq_ok]
    constructor
    · rintro ⟨b, hb, h⟩
      obtain ⟨bs', hbs', h⟩ := bind_eq_ok.1 h
      cases h
      rw [List.map_cons, List.map_cons, hb, ih.1 hbs']
    · intro h
      cases bs with
      | nil => cases h
      | cons b bs =>
        obtain ⟨hb, hbs⟩ := List.cons.inj h
        exact ⟨b, hb, bind_eq_ok.2 ⟨bs, ih.2 hbs, rfl⟩⟩

theorem mem_of_mapM_eq_ok {bs : List β} (h : l.mapM f = .ok bs) {b : β} :
    b ∈ bs ↔ ∃ a ∈ l, f a = .ok b := by
  rw [← List.mem_map, mapM_eq_ok.1 h, List.mem_map_of_injective fun _ _ => Except.ok.inj]

theorem exists_of_mapM_eq_ok {bs : List β} (h : l.mapM f = .ok bs) {a : α} (ha : a ∈ l) :
    ∃ b, f a = .ok b := by
  have hmem := List.mem_map_of_mem (f := f) ha
  rw [mapM_eq_ok.1 h] at hmem
  obtain ⟨b, -, hb⟩ := List.mem_map.1 hmem
  exact ⟨b, hb.symm⟩

/-- What a `for` loop over a range collects. -/
theorem mapM_range'_eq_ok {β : Type} {f : ℕ → Except PyError β} {s n : ℕ} {bs : List β}
    (h : (List.range' s n).mapM f = .ok bs) :
    bs.length = n ∧ ∀ i < n, ∃ b, bs[i]? = some b ∧ f (s + i) = .ok b := by
  have hmap := mapM_eq_ok.1 h
  have hlen := congrArg List.length hmap
  rw [List.length_map, List.length_map, List.length_range'] at hlen
  refine ⟨hlen.symm, fun i hi => ⟨bs[i], List.getElem?_eq_getElem _, ?_⟩⟩
  have hget := congrArg (·[i]?) hmap
  simpa only [List.getElem?_map, List.getElem?_range' hi, Nat.one_mul, Option.map_some,
    List.getElem?_eq_getElem (hlen ▸ hi), Option.some.injEq] using hget

theorem exists_mapM_eq_ok (h : ∀ a ∈ l, ∃ b, f a = .ok b) : ∃ bs, l.mapM f = .ok bs := by
  induction l with
  | nil => exact ⟨[], rfl⟩
  | cons a l ih =>
    obtain ⟨b, hb⟩ := h a List.mem_cons_self
    obtain ⟨bs, hbs⟩ := ih fun a ha => h a (List.mem_cons_of_mem _ ha)
    refine ⟨b :: bs, ?_⟩
    rw [List.mapM_cons, hb, hbs]
    rfl

theorem mapM_range_one {f : ℕ → Except PyError β} {b : β} (h : f 0 = .ok b) :
    (List.range 1).mapM f = .ok [b] := mapM_eq_ok.2 (congrArg ([·]) h)

/-- A `for` loop over what there is, that collects something of each. -/
theorem mapM_filterMap {γ δ : Type} {o : α → Option γ} {c : α → γ → δ} {f : δ → Except PyError β}
    {F : α → γ → β} (h : ∀ a ∈ l, ∀ y, o a = some y → f (c a y) = .ok (F a y)) :
    (l.filterMap fun a => (o a).map (c a)).mapM f = .ok (l.filterMap fun a => (o a).map (F a)) := by
  induction l with
  | nil => rfl
  | cons a l ih =>
    have htail := ih fun a ha => h a (List.mem_cons_of_mem _ ha)
    cases ho : o a with
    | none =>
      rw [List.filterMap_cons_none (by rw [ho]; rfl), List.filterMap_cons_none (by rw [ho]; rfl)]
      exact htail
    | some y =>
      rw [List.filterMap_cons_some (by rw [ho]; rfl), List.filterMap_cons_some (by rw [ho]; rfl),
        List.mapM_cons, h a List.mem_cons_self y ho, htail]
      rfl

/-- A loop whose steps do not raise an exception. -/
theorem foldlM_eq_ok {f : β → α → Except PyError β} {g : β → α → β}
    (h : ∀ b, ∀ a ∈ l, f b a = .ok (g b a)) (b : β) : l.foldlM f b = .ok (l.foldl g b) := by
  induction l generalizing b with
  | nil => rfl
  | cons a l ih =>
    rw [List.foldlM_cons, h b a List.mem_cons_self]
    exact ih (fun b a ha => h b a (List.mem_cons_of_mem _ ha)) (g b a)

end Raise

/-! ## Strings, numbers and indices -/

/-- `str.isspace`, of a character. -/
def isSpace (c : Char) : Bool :=
  let n := c.toNat
  (9 ≤ n && n ≤ 13) || (28 ≤ n && n ≤ 32) || (8192 ≤ n && n ≤ 8202) ||
    [133, 160, 5760, 8232, 8233, 8239, 8287, 12288].contains n

/-- `s.split()`. -/
def split (s : List Char) : List (List Char) := (s.splitOnP isSpace).filter (· ≠ [])

/-- `s.encode('ascii')`. -/
def encodeAscii (s : List Char) : Except PyError (List UInt8) :=
  if s.all (·.toNat < 128) then .ok (s.map fun c => UInt8.ofNat c.toNat) else .error .unicode

/-- The value of a digit. -/
def digit (base : ℕ) (c : Char) : Option ℕ :=
  let n := c.toNat
  let v := if 48 ≤ n ∧ n ≤ 57 then n - 48
    else if 65 ≤ n ∧ n ≤ 70 then n - 55
    else if 97 ≤ n ∧ n ≤ 102 then n - 87
    else base
  if v < base then some v else none

/-- A number of which some digits are read: more digits, with single underscores before them. -/
def digits (base : ℕ) (acc : ℕ) : List Char → Option ℕ
  | [] => some acc
  | '_' :: c :: cs => (digit base c).bind fun v => digits base (base * acc + v) cs
  | c :: cs => (digit base c).bind fun v => digits base (base * acc + v) cs

/-- A number that begins with a digit. -/
def number (base : ℕ) : List Char → Option ℕ
  | [] => none
  | c :: cs => (digit base c).bind fun v => digits base v cs

/-- A number after the prefix of its base. -/
def prefixed (base : ℕ) : List Char → Option ℕ
  | '_' :: cs => number base cs
  | cs => number base cs

/-- A number in the base that its prefix says, as in a program. -/
def literal : List Char → Option ℕ
  | '0' :: 'x' :: cs | '0' :: 'X' :: cs => prefixed 16 cs
  | '0' :: 'o' :: cs | '0' :: 'O' :: cs => prefixed 8 cs
  | '0' :: 'b' :: cs | '0' :: 'B' :: cs => prefixed 2 cs
  | '0' :: cs => (number 10 ('0' :: cs)).filter (· = 0)
  | cs => number 10 cs

/-- A number with a sign. -/
def signed (read : List Char → Option ℕ) (s : List Char) : Except PyError ℤ :=
  match (s.dropWhile isSpace).rdropWhile isSpace with
  | '-' :: cs => (read cs).elim (.error .value) fun v => .ok (-v)
  | '+' :: cs => (read cs).elim (.error .value) fun v => .ok v
  | cs => (read cs).elim (.error .value) fun v => .ok v

/-- `int(s)`. -/
def int (s : List Char) : Except PyError ℤ := signed (number 10) s

/-- `int(s, 0)`. -/
def int0 (s : List Char) : Except PyError ℤ := signed literal s

/-- The place that an index means in a list of some length: negative ones count from the end. -/
def index (n : ℕ) (i : ℤ) : Except PyError ℕ :=
  if 0 ≤ i ∧ i < n then .ok i.toNat
  else if i < 0 ∧ 0 ≤ i + n then .ok (i + n).toNat
  else .error .index

theorem index_of_lt {n i : ℕ} (h : i < n) : index n i = .ok i :=
  if_pos ⟨Int.natCast_nonneg i, Int.ofNat_lt.2 h⟩

end Py

end Cs5600
