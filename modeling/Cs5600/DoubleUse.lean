import Cs5600.Bitmaps
import Cs5600.Described

/-!
# Blocks that are used twice

`gen-disk.py` prints a line for a listed block that is marked already, but it marks the inodes
of objects without a look at the bitmap. So a number that is used twice is reported if the
later use is a listed block, and not if it is an inode.

What it does is right for a description if it reports a double use, or if there is none and all
can be written to the image (`detects_iff`). The other lines that are printed are not modelled.
-/

namespace Cs5600

open Py DiskFmt

namespace GenDisk

/-! ## What is printed -/

/-- The line that is printed for a block. -/
def doubleCounted (b : ℤ) : String := "ERROR: double counted " ++ toString b

namespace Marks

/-- `Marks.block`, with the lines that have been printed. -/
def blockPrinting (f : Item) (st : Marks × List String) (b : ℤ × ℕ) :
    Except PyError (Marks × List String) := do
  let used ← st.1.map.get b.1
  let m ← st.1.mark b.1
  let m ← m.place b.1 (.block f b.2)
  pure (m, if used then st.2 ++ [doubleCounted b.1] else st.2)

/-- `Marks.item`, with the lines that have been printed. -/
def itemPrinting (st : Marks × List String) (f : Item) : Except PyError (Marks × List String) := do
  let m ← st.1.place f.inum (.inode f)
  let m ← m.mark f.inum
  f.blocks.zipIdx.foldlM (blockPrinting f) (m, st.2)

/-- The loop over the objects, and the lines that it prints. -/
def loop (x : Script) : Except PyError (Marks × List String) := do
  let m ← start
  (x.files ++ x.dirs).foldlM itemPrinting (m, [])

variable {f : Item} {st : Marks × List String}

/-- A loop does the same if one forgets what is printed. -/
theorem fst_foldlM {α : Type} {g : Marks × List String → α → Except PyError (Marks × List String)}
    {h : Marks → α → Except PyError Marks} (hgh : ∀ st a, Prod.fst <$> g st a = h st.1 a)
    (l : List α) (st : Marks × List String) : Prod.fst <$> l.foldlM g st = l.foldlM h st.1 := by
  induction l generalizing st with
  | nil => rfl
  | cons a l ih =>
    rw [List.foldlM_cons, List.foldlM_cons, map_bind, ← hgh, bind_map_left]
    exact bind_congr ih

theorem fst_blockPrinting (b : ℤ × ℕ) :
    Prod.fst <$> blockPrinting f st b = block f st.1 b := by
  simp only [blockPrinting, block, map_bind, map_pure, bind_pure]

theorem fst_itemPrinting : Prod.fst <$> itemPrinting st f = item st.1 f := by
  simp only [itemPrinting, item, map_bind, fst_foldlM fun st b => fst_blockPrinting b]

/-- The loop leaves what the blocks of the image are written from. -/
theorem genDisk_eq (content : ℤ → ℕ → Block) {lines : List (List Char)} {x : Script}
    (hparse : parse lines = .ok x) : genDisk content lines = (do
      let st ← loop x
      let rest ← (List.range' 2 (x.nblocks.toNat - 2)).mapM (st.1.write content)
      pure (ofBytes (bytes (Super.fields ⟨0x30303635, x.nblocks⟩)) ::
        ofBytes (bytes st.1.map.fields) :: rest)) := by
  have hitems (m : Marks) : Prod.fst <$> (x.files ++ x.dirs).foldlM itemPrinting (m, []) =
      (x.files ++ x.dirs).foldlM item m :=
    fst_foldlM (fun _ _ => fst_itemPrinting) _ _
  rw [genDisk, show parse lines = pure x from hparse]
  simp only [pure_bind, loop, bind_assoc, ← hitems, bind_map_left]

end Marks

/-! ## Which lines are printed -/

/-- Whether the block is listed by an object, and not its inode. -/
def Slot.listed : Slot → Bool
  | inode _ => false
  | block _ _ => true

/-- The blocks of all objects in order, each with what is written there. -/
def Script.placements (x : Script) : List (ℤ × Slot) := x.items.flatMap Item.placements

/-- The blocks in use, those of the superblock and the bitmap among them. -/
def Script.uses (x : Script) : List ℤ := 0 :: 1 :: x.numbers

/-- A block is listed that has been used before. -/
def Repeats (ps : List (ℤ × Slot)) : Prop :=
  ∃ us p vs, ps = us ++ p :: vs ∧ p.2.listed = true ∧ p.1 ∈ 0 :: 1 :: us.map Prod.fst

variable {x : Script}

theorem Script.numbers_eq (x : Script) : x.placements.map Prod.fst = x.numbers := by
  rw [placements, List.map_flatMap]
  exact congrArg (x.items.flatMap ·) (funext Item.numbers_eq)

/-- Then a number is used twice. -/
theorem not_nodup_of_repeats (h : Repeats x.placements) : ¬ x.uses.Nodup := by
  obtain ⟨us, p, vs, hps, -, hp⟩ := h
  have hnumbers : x.uses = 0 :: 1 :: us.map Prod.fst ++ p.1 :: vs.map Prod.fst := by
    rw [Script.uses, ← x.numbers_eq, hps, List.map_append, List.map_cons]
    rfl
  rw [hnumbers]
  intro hnodup
  exact (List.nodup_append'.1 hnodup).2.2 hp List.mem_cons_self

theorem repeats_concat {ps : List (ℤ × Slot)} {p : ℤ × Slot} : Repeats (ps ++ [p]) ↔
    Repeats ps ∨ (p.2.listed = true ∧ p.1 ∈ 0 :: 1 :: ps.map Prod.fst) := by
  constructor
  · rintro ⟨us, q, vs, hps, hlisted, hmem⟩
    rcases List.eq_nil_or_concat vs with rfl | ⟨vs, r, rfl⟩
    · obtain ⟨rfl, hp⟩ := List.append_inj' hps rfl
      obtain rfl := List.singleton_injective hp
      exact .inr ⟨hlisted, hmem⟩
    · rw [List.concat_eq_append, ← List.cons_append, ← List.append_assoc] at hps
      exact .inl ⟨us, q, vs, (List.append_inj' hps rfl).1, hlisted, hmem⟩
  · rintro (⟨us, q, vs, rfl, hlisted, hmem⟩ | ⟨hlisted, hmem⟩)
    · exact ⟨us, q, vs ++ [p], List.append_assoc _ _ _, hlisted, hmem⟩
    · exact ⟨ps, p, [], rfl, hlisted, hmem⟩

namespace Marks

/-- What is printed when a block is put. -/
def complaint (m : Marks) (p : ℤ × Slot) : List String :=
  if p.2.listed && m.map.bit p.1.toNat then [doubleCounted p.1] else []

/-- A block is put, with the lines that have been printed. -/
def putPrinting (st : Marks × List String) (p : ℤ × Slot) : Marks × List String :=
  (st.1.put p, st.2 ++ st.1.complaint p)

variable {f : Item} {st : Marks × List String} {ps : List (ℤ × Slot)}

theorem blockPrinting_eq {b : ℤ × ℕ} (hb : InRange b.1) :
    blockPrinting f st b = .ok (putPrinting st (b.1, .block f b.2)) := by
  obtain ⟨i, hi⟩ := Int.eq_ofNat_of_zero_le hb.1
  have hlt : i < 32768 := by
    have := hb.2
    omega
  have hget : st.1.map.get b.1 = .ok (st.1.map.bit b.1.toNat) := by
    rw [hi]
    exact Bitmap.get_eq hlt
  have hprinted : (if st.1.map.bit b.1.toNat then st.2 ++ [doubleCounted b.1] else st.2) =
      st.2 ++ st.1.complaint (b.1, .block f b.2) := by
    rw [complaint, Slot.listed, Bool.true_and]
    split_ifs
    · rfl
    · exact (List.append_nil _).symm
  simp only [blockPrinting, hget, mark_eq hb, place_eq hb]
  rw [putPrinting, ← hprinted]
  rfl

theorem itemPrinting_eq (hf : ∀ b ∈ f.numbers, InRange b) :
    itemPrinting st f = .ok (f.placements.foldl putPrinting st) := by
  have hinum := hf f.inum List.mem_cons_self
  have hinode : putPrinting st (f.inum, .inode f) = (st.1.put (f.inum, .inode f), st.2) :=
    congrArg _ (List.append_nil _)
  have hloop := foldlM_eq_ok (l := f.blocks.zipIdx) (f := blockPrinting f)
    (g := fun st b => putPrinting st (b.1, .block f b.2))
    fun st b hb => blockPrinting_eq (hf b.1 (List.mem_cons_of_mem _ (List.fst_mem_of_mem_zipIdx hb)))
  simp only [itemPrinting, place_eq hinum, mark_eq hinum]
  rw [Item.placements, List.foldl_cons, List.foldl_map, hinode]
  exact hloop _

/-- The loop puts the blocks of all objects one after the other. -/
theorem loop_eq (h : ∀ b ∈ x.numbers, InRange b) {m : Marks} (hm : start = .ok m) :
    loop x = .ok (x.placements.foldl putPrinting (m, [])) := by
  rw [loop, hm]
  refine (foldlM_eq_ok (g := fun st f => f.placements.foldl putPrinting st)
    (fun st f hf => itemPrinting_eq fun b hb => h b (mem_numbers hf hb)) _).trans ?_
  rw [Script.placements, List.foldl_flatMap]

theorem fst_foldl_putPrinting : (ps.foldl putPrinting st).1 = ps.foldl put st.1 := by
  induction ps generalizing st with
  | nil => rfl
  | cons p ps ih => exact ih

/-- A line is printed if and only if a block is listed that has been used before. -/
theorem snd_foldl_putPrinting {m : Marks}
    (hm : ∀ j, m.map.bit j = (decide (1 = j) || decide (0 = j))) (h0 : ∀ p ∈ ps, 0 ≤ p.1) :
    (ps.foldl putPrinting (m, [])).2 ≠ [] ↔ Repeats ps := by
  induction ps using List.reverseRecOn with
  | nil =>
    refine iff_of_false (fun h => h rfl) ?_
    rintro ⟨us, p, vs, hps, -⟩
    exact absurd hps.symm (List.append_ne_nil_of_right_ne_nil _ (List.cons_ne_nil _ _))
  | append_singleton ps p ih =>
    have hp := h0 p (List.mem_append_right _ List.mem_cons_self)
    have hps : ∀ q ∈ ps, 0 ≤ q.1 := fun q hq => h0 q (List.mem_append_left _ hq)
    -- The block is marked if it has been used before.
    have hmem : p.1.toNat ∈ ps.map (·.1.toNat) ↔ p.1 ∈ ps.map Prod.fst := by
      rw [List.mem_map, List.mem_map]
      refine exists_congr fun q => and_congr_right fun hq => ?_
      have := hps q hq
      omega
    have h₀ : 0 = p.1.toNat ↔ p.1 = 0 := by omega
    have h₁ : 1 = p.1.toNat ↔ p.1 = 1 := by omega
    have hbit : (ps.foldl put m).map.bit p.1.toNat = true ↔ p.1 ∈ 0 :: 1 :: ps.map Prod.fst := by
      rw [bit_foldl_put, hm, List.mem_cons, List.mem_cons]
      simp only [Bool.or_eq_true, decide_eq_true_eq, hmem, h₀, h₁]
      exact or_comm.trans ((or_congr_left or_comm).trans or_assoc)
    have hcomplaint : complaint (ps.foldl put m) p ≠ [] ↔
        p.2.listed = true ∧ p.1 ∈ 0 :: 1 :: ps.map Prod.fst := by
      rw [complaint, ← hbit, ← Bool.and_eq_true_iff]
      split_ifs with h
      · exact iff_of_true (List.cons_ne_nil _ _) h
      · exact iff_of_false (fun hne => hne rfl) h
    rw [repeats_concat, ← ih hps, ← hcomplaint, List.foldl_append, List.foldl_cons, List.foldl_nil,
      putPrinting, fst_foldl_putPrinting, Ne, List.append_eq_nil_iff, not_and_or]

end Marks

/-! ## What the script does right -/

/-- The script reports every double use of a block. If it reports none, it makes an image with the
    inode and the blocks of every object in their places. -/
def Detects (content : ℤ → ℕ → Block) (lines : List (List Char)) (x : Script) : Prop :=
  ∃ m printed, Marks.loop x = .ok (m, printed) ∧ (printed ≠ [] ↔ ¬ x.uses.Nodup) ∧
    (printed = [] → ∃ bs, genDisk content lines = .ok bs ∧ ∀ f ∈ x.items, ∀ p ∈ f.placements,
      ∃ b, bs[p.1.toNat]? = some b ∧ p.2.write content = .ok b)

/-- All objects can be written to the image. -/
structure Script.Fits (x : Script) : Prop where
  le : x.nblocks ≤ 400
  lt : ∀ b ∈ x.numbers, b < x.nblocks
  encodes : ∀ f ∈ x.items, f.Encodes

section Fits

variable (content : ℤ → ℕ → Block) (hrange : ∀ b ∈ x.numbers, Marks.InRange b)
  (hnodup : x.uses.Nodup)
include hrange hnodup

theorem two_le_of_nodup {b : ℤ} (hb : b ∈ x.numbers) : 2 ≤ b := by
  rw [Script.uses, List.nodup_cons, List.nodup_cons, List.mem_cons, not_or] at hnodup
  have h0 := (hrange b hb).1
  have hne0 : b ≠ 0 := ne_of_mem_of_not_mem hb hnodup.1.2
  have hne1 : b ≠ 1 := ne_of_mem_of_not_mem hb hnodup.2.1
  omega

/-- What is noted for the blocks, if no number is used twice. -/
theorem blocks_of_nodup {m : Marks} {p : ℤ × Slot} (hp : p ∈ x.placements) :
    (x.placements.foldl Marks.put m).blocks p.1.toNat = some p.2 := by
  refine Marks.blocks_foldl_put_of_mem ?_ hp
  have hnumbers : x.placements.map (·.1.toNat) = x.numbers.map Int.toNat := x.map_placements
  rw [hnumbers]
  refine (hnodup.of_cons).of_cons.map_on fun a ha b hb h => ?_
  have h₁ := (hrange a ha).1
  have h₂ := (hrange b hb).1
  omega

/-- Then all is in its place if and only if it fits. -/
theorem fits_iff {lines : List (List Char)} (hparse : parse lines = .ok x) {m₀ : Marks}
    {printed : List String} (hblocks : ∀ j, m₀.blocks j = none)
    (hloop : Marks.loop x = .ok (x.placements.foldl Marks.put m₀, printed)) :
    (∃ bs, genDisk content lines = .ok bs ∧ ∀ f ∈ x.items, ∀ p ∈ f.placements,
      ∃ b, bs[p.1.toNat]? = some b ∧ p.2.write content = .ok b) ↔ x.Fits := by
  have hmem : ∀ f ∈ x.items, ∀ p ∈ f.placements, p.1 ∈ x.numbers := fun f hf p hp =>
    mem_numbers hf (f.numbers_eq ▸ List.mem_map_of_mem hp)
  have hnoted : ∀ f ∈ x.items, ∀ p ∈ f.placements, _ := fun f hf p hp =>
    blocks_of_nodup hrange hnodup (m := m₀) (List.mem_flatMap.2 ⟨f, hf, hp⟩)
  rw [Marks.genDisk_eq content hparse, hloop]
  constructor
  · rintro ⟨bs, hbs, hplaces⟩
    obtain ⟨st, hst, hbs⟩ := bind_eq_ok.1 hbs
    obtain rfl := Except.ok.inj hst
    obtain ⟨rest, hrest, hbs⟩ := bind_eq_ok.1 hbs
    obtain rfl := Except.ok.inj hbs
    obtain ⟨hlen, hwrite⟩ := mapM_range'_eq_ok hrest
    refine ⟨?_, fun b hb => ?_, fun f hf => (encodes_iff content).2 fun p hp => ?_⟩
    · -- There is no place for a block 400.
      by_contra hgt
      obtain ⟨b, -, hb⟩ := hwrite 398 (by omega)
      cases hb
    · obtain ⟨f, hf, hbf⟩ := List.mem_flatMap.1 hb
      rw [← f.numbers_eq] at hbf
      obtain ⟨p, hp, rfl⟩ := List.mem_map.1 hbf
      obtain ⟨b, hb, -⟩ := hplaces f hf p hp
      obtain ⟨hlt, -⟩ := List.getElem?_eq_some_iff.1 hb
      rw [List.length_cons, List.length_cons, hlen] at hlt
      have h2 := two_le_of_nodup hrange hnodup (hmem f hf p hp)
      omega
    · obtain ⟨b, -, hb⟩ := hplaces f hf p hp
      exact ⟨b, hb⟩
  · rintro ⟨hle, hlt, hencodes⟩
    have hwrites : ∀ p ∈ x.placements, ∃ b, p.2.write content = .ok b := fun p hp => by
      obtain ⟨f, hf, hp⟩ := List.mem_flatMap.1 hp
      exact (encodes_iff content).1 (hencodes f hf) p hp
    obtain ⟨rest, hrest⟩ := Marks.exists_writes content hblocks hwrites
      (show 2 + (x.nblocks.toNat - 2) ≤ 400 by omega)
    obtain ⟨hlen, hwrite⟩ := mapM_range'_eq_ok hrest
    refine ⟨_, bind_eq_ok.2 ⟨_, rfl, bind_eq_ok.2 ⟨rest, hrest, rfl⟩⟩, fun f hf p hp => ?_⟩
    have h2 := two_le_of_nodup hrange hnodup (hmem f hf p hp)
    have hpn := hlt p.1 (hmem f hf p hp)
    obtain ⟨i, hi⟩ : ∃ i, p.1.toNat = i + 2 := ⟨p.1.toNat - 2, by omega⟩
    obtain ⟨b, hb, hget⟩ := hwrite i (by omega)
    rw [Nat.add_comm, ← hi, Marks.write, if_neg (by omega), hnoted f hf p hp] at hget
    refine ⟨b, ?_, hget⟩
    rw [hi]
    exact hb

end Fits

/-- The script is right about a description if and only if a block is listed that has been used before,
    or no number is used twice and all objects fit into the image. -/
theorem detects_iff (content : ℤ → ℕ → Block) {lines : List (List Char)} (hparse : parse lines = .ok x)
    (hrange : ∀ b ∈ x.numbers, 0 ≤ b ∧ b < 400) :
    Detects content lines x ↔ Repeats x.placements ∨ (x.uses.Nodup ∧ x.Fits) := by
  obtain ⟨m₀, hstart, hbit, hblocks⟩ := Marks.exists_start
  obtain ⟨printed, hst⟩ : ∃ printed, x.placements.foldl Marks.putPrinting (m₀, []) =
      (x.placements.foldl Marks.put m₀, printed) :=
    ⟨_, Prod.ext Marks.fst_foldl_putPrinting rfl⟩
  have hloop := Marks.loop_eq hrange hstart
  rw [hst] at hloop
  have h0 : ∀ p ∈ x.placements, 0 ≤ p.1 := fun p hp =>
    (hrange p.1 (x.numbers_eq ▸ List.mem_map_of_mem hp)).1
  have hprinted := Marks.snd_foldl_putPrinting hbit h0
  rw [hst] at hprinted
  have hdetects : Detects content lines x ↔ (printed ≠ [] ↔ ¬ x.uses.Nodup) ∧
      (printed = [] → ∃ bs, genDisk content lines = .ok bs ∧ ∀ f ∈ x.items, ∀ p ∈ f.placements,
        ∃ b, bs[p.1.toNat]? = some b ∧ p.2.write content = .ok b) := by
    constructor
    · rintro ⟨m, printed', hloop', hd⟩
      obtain ⟨rfl, rfl⟩ := Prod.mk.inj (Except.ok.inj (hloop.symm.trans hloop'))
      exact hd
    · exact fun hd => ⟨_, _, hloop, hd⟩
  rw [hdetects]
  by_cases hrep : Repeats x.placements
  · -- A line is printed.
    refine iff_of_true ⟨iff_of_true (hprinted.2 hrep) (not_nodup_of_repeats hrep), fun hnil => ?_⟩
      (.inl hrep)
    exact absurd hnil (hprinted.2 hrep)
  · have hnil : printed = [] := not_not.1 fun hne => hrep (hprinted.1 hne)
    rw [or_iff_right hrep]
    constructor
    · rintro ⟨hreports, himage⟩
      have hnodup : x.uses.Nodup := not_not.1 fun hnot => hreports.2 hnot hnil
      exact ⟨hnodup, (fits_iff content hrange hnodup hparse hblocks hloop).1 (himage hnil)⟩
    · rintro ⟨hnodup, hfits⟩
      refine ⟨iff_of_false (fun hne => hne hnil) (fun hnot => hnot hnodup), fun _ => ?_⟩
      exact (fits_iff content hrange hnodup hparse hblocks hloop).2 hfits

/-- The description of a root directory and a file, in which no number is used twice. -/
theorem detects_iff_wideUid : ∃ x, parse wideUid = .ok x ∧
    Detects (fun _ _ => Block.zero) wideUid x := by
  obtain ⟨x, hparse, hn, hi⟩ := parse_wideUid
  have hv := valid_wideUid hn hi
  have hrange : ∀ b ∈ x.numbers, 0 ≤ b ∧ b < 400 := fun b hb => hv.inRange hb
  refine ⟨x, hparse, (detects_iff _ hparse hrange).2 (.inr ⟨?_, hv.le, fun b hb => (hv.range b hb).2,
    fun f hf => (hv.good f hf).encodes ((hv.length_le hf).trans (by decide))⟩)⟩
  rw [Script.uses, Script.numbers, hi]
  decide

/-- A description in which the inode of a file is the block of another one. -/
def takenInode : List (List Char) :=
  ["$u 500", "size 7", "file 4 /a $u $u $u $u $u 10 5", "file 5 /b $u $u $u $u $u 10 6"].map
    String.toList

/-- The two files. -/
def takenFile (inum block : ℤ) (name : List Char) : Item where
  inum := inum
  name := .str name
  uid := .num 500
  gid := .num 500
  mode := .num 500
  ctime := .num 500
  mtime := .num 500
  size := 10
  blocks := [block]
  kind := .file

theorem parse_takenInode : ∃ x, parse takenInode = .ok x ∧ x.nblocks = 7 ∧
    x.items = [takenFile 4 5 ['/', 'a'], takenFile 5 6 ['/', 'b']] :=
  ⟨_, rfl, rfl, rfl⟩

/-- Nothing is printed for it. -/
theorem exists_not_detects : ∃ x, parse takenInode = .ok x ∧
    (∀ b ∈ x.numbers, 0 ≤ b ∧ b < 400) ∧ ¬ Detects (fun _ _ => Block.zero) takenInode x := by
  obtain ⟨x, hparse, -, hi⟩ := parse_takenInode
  refine ⟨x, hparse, ?_, ?_⟩
  · rw [Script.numbers, hi]
    decide
  · rintro ⟨m, printed, hloop, hreports, -⟩
    obtain ⟨m', hnone⟩ : ∃ m', Marks.loop x = .ok (m', []) := by
      rw [Marks.loop, show x.files ++ x.dirs = _ from hi]
      exact ⟨_, rfl⟩
    have hnil : printed = [] := congrArg Prod.snd (Except.ok.inj (hloop.symm.trans hnone))
    refine absurd hnil (hreports.2 ?_)
    rw [Script.uses, Script.numbers, hi]
    decide

end GenDisk

end Cs5600
