import Cs5600.Db.LoadTest

/-!
# Too many threads

The load test writes new objects until `n_objects` is 98 more than the lower bound that `get_op`
computes from `max`. But every thread may have found that there are few enough objects before
another one counts its own. If there are enough threads for more than the 150 entries of the table,
they can all come to count an object, and then the last one finds no free entry in `get_free`,
and uses the memory after the table. So the condition of `loadTest_clean` is the exact one
(`overrun_iff`).
-/

namespace Cs5600.Db

namespace Load

open Traces

/-! ## Names -/

/-- Names that `randstr` may choose, all of them different. -/
def nameOf (k : ℕ) : List UInt8 :=
  UInt8.ofNat (65 + k % 25) :: UInt8.ofNat (65 + k / 25) :: List.replicate 14 65

theorem toNat_letter {k : ℕ} (hk : k < 25) : (UInt8.ofNat (65 + k)).toNat = 65 + k := by
  rw [UInt8.toNat_ofNat']
  exact Nat.mod_eq_of_lt (by omega)

theorem randstr_nameOf {k : ℕ} (hk : k < 625) : Randstr (nameOf k) := by
  have hletter : ∀ j, j < 25 → 'A'.toUInt8 ≤ UInt8.ofNat (65 + j) ∧
      UInt8.ofNat (65 + j) < 'A'.toUInt8 + 25 := by
    intro j hj
    rw [UInt8.le_iff_toNat_le, UInt8.lt_iff_toNat_lt, toNat_letter hj]
    change 65 ≤ 65 + j ∧ 65 + j < 90
    omega
  intro b hb
  rcases List.mem_cons.1 hb with rfl | hb
  · exact hletter _ (Nat.mod_lt _ (by decide))
  · rcases List.mem_cons.1 hb with rfl | hb
    · exact hletter _ (by omega)
    · rw [List.eq_of_mem_replicate hb]
      decide

theorem nameOf_injOn {k k' : ℕ} (hk : k < 625) (hk' : k' < 625) (h : nameOf k = nameOf k') :
    k = k' := by
  obtain ⟨h₁, h⟩ := List.cons.inj h
  have h₂ := (List.cons.inj h).1
  have hmod := congrArg UInt8.toNat h₁
  have hdiv := congrArg UInt8.toNat h₂
  rw [toNat_letter (Nat.mod_lt _ (by decide)), toNat_letter (Nat.mod_lt _ (by decide))] at hmod
  rw [toNat_letter (by omega), toNat_letter (by omega)] at hdiv
  omega

/-! ## Writing objects -/

variable {T : Type*} [DecidableEq T] {maxKeys : ℤ} {crc : List UInt8 → ℤ} {s : Load T} {t : T}

/-- The entries in use. -/
def used (s : Load T) : Finset (Fin 150) :=
  Finset.univ.filter fun i => 0 < (s.table i).len ∨ (s.table i).busy

omit [DecidableEq T] in
theorem mem_used {i : Fin 150} : i ∈ s.used ↔ 0 < (s.table i).len ∨ (s.table i).busy := by
  rw [used, Finset.mem_filter, and_iff_right (Finset.mem_univ i)]

omit [DecidableEq T] in
/-- `get_free` finds an entry that is not in use, if there is one. -/
theorem getFree_spec : match Db.getFree s.table with
    | some num => num ∉ s.used
    | none => s.used = Finset.univ := by
  have hfree : ∀ i, ((s.table i).len == 0 && !(s.table i).busy) = true ↔ i ∉ s.used := by
    intro i
    rw [mem_used, not_or, Nat.pos_iff_ne_zero, not_not, Bool.and_eq_true, beq_iff_eq,
      Bool.not_eq_true', Bool.not_eq_true]
  cases h : Db.getFree s.table with
  | some num =>
    have hnum := List.find?_some (p := fun i => (s.table i).len == 0 && !(s.table i).busy) h
    exact (hfree num).1 hnum
  | none =>
    refine Finset.eq_univ_of_forall fun i => ?_
    by_contra hi
    exact List.find?_eq_none.1 h i (List.mem_finRange i) ((hfree i).2 hi)

variable (crc) in
/-- A thread chooses to write a new object, as long as there are few. -/
theorem exists_choose (hmax : 0 ≤ maxKeys) (hint : maxKeys * 85 < 2 ^ 31) (ht : s.tester t = .idle)
    (hn : s.nObjects ≤ (maxKeys * 15).tdiv 100 + 98) :
    Trace (Steps maxKeys crc) s [none, none] (s.goto t .new) := by
  have hop : Db.getOp maxKeys s.nObjects 0 99 = some .write := by
    rw [getOp_of_lt hmax hint]
    refine congrArg some (ite_eq_right_iff.2 fun _ => if_pos ?_)
    change ((99 : ℕ) : ℤ) > _
    omega
  have h₁ : Step maxKeys crc s t none _ := .getOp 0 99 ht
  rw [hop] at h₁
  have h₂ : Step maxKeys crc (s.goto t .write) t none ((s.goto t .write).goto t .new) :=
    .fresh (Function.update_self ..)
  have hgoto : (s.goto t .write).goto t .new = s.goto t .new := by
    rw [goto, goto]
    simp only [Function.update_idem]
    rfl
  rw [hgoto] at h₂
  exact (Trace.single ⟨t, h₁⟩).snoc ⟨t, h₂⟩

variable (crc t) in
theorem finishWrite_spec {num : Fin 150} {name : List UInt8}
    (hname : (s.table num).name = name) (error data : List UInt8) (sock : Socket) :
    (s.finishWrite t crc error num name data sock).tester = Function.update s.tester t .idle ∧
      (s.finishWrite t crc error num name data sock).table = Function.update s.table num
        { name, len := data.length, crc := crc data, busy := false } ∧
      (s.finishWrite t crc error num name data sock).nObjects = s.nObjects := by
  rw [Load.finishWrite]
  by_cases hval : (sock.read 40).1 < 40
  · -- It prints that the header is not whole.
    have hprint : ((s.print (noHeader "WRITE" error (sock.read 40).1)).table num).name = name := hname
    simp only [hval, if_true, hprint]
    exact ⟨rfl, rfl, rfl⟩
  · simp only [hval, if_false, hname, if_true]
    exact ⟨rfl, rfl, rfl⟩

variable (maxKeys crc) in
/-- A thread that has chosen to write a new object does so, if there is a free entry. -/
theorem exists_write (ht : s.tester t = .new) (hroom : s.used ≠ Finset.univ) (name : List UInt8)
    (hlength : name.length = 16) (hname : Randstr name) :
    ∃ s', Trace (Steps maxKeys crc) s [none, some name, none, none, none, none] s' ∧
      s'.tester = Function.update s.tester t .idle ∧ s'.nObjects = s.nObjects + 1 ∧
      s'.used.card = s.used.card + 1 := by
  obtain ⟨num, hnum, hfree⟩ : ∃ num, Db.getFree s.table = some num ∧ num ∉ s.used := by
    have hspec := getFree_spec (s := s)
    cases h : Db.getFree s.table with
    | none =>
      rw [h] at hspec
      exact absurd hspec hroom
    | some num =>
      rw [h] at hspec
      exact ⟨num, rfl, hspec⟩
  -- The states that the thread goes through.
  let data : List UInt8 := List.replicate 20 65
  let s₁ := { s with nObjects := s.nObjects + 1 }.goto t .counted
  let s₂ := (s₁.setBusy num true).goto t (.got num name)
  let s₃ := (s₂.setEntry num { s₂.table num with name }).goto t (.writing num name)
  let s₄ := s₃.goto t (.sent num name data)
  let hd := s₄.handle Meeting.plain.vars (loadRequest .write name data.length) data
  let s₅ := { s₄ with server := hd.server }.goto t (.written num name data hd.sent)
  have h₁ : Step maxKeys crc s t none s₁ := .count ht
  have h₂ : Step maxKeys crc s₁ t (some name) s₂ := by
    have h : Step maxKeys crc s₁ t (some name) _ := .getFree (Function.update_self ..) hlength hname
    rwa [show Db.getFree s₁.table = some num from hnum] at h
  have h₃ : Step maxKeys crc s₂ t none s₃ := by
    have h : Step maxKeys crc s₂ t none _ := .strcpy (Function.update_self ..)
    have hbusy : (s₂.table num).busy = true := by
      change (Function.update s.table num _ num).busy = true
      rw [Function.update_self]
    rwa [if_pos hbusy] at h
  have h₄ : Step maxKeys crc s₃ t none s₄ := by
    refine .send (Function.update_self ..) (by decide) (by decide) fun b hb => ?_
    rw [List.eq_of_mem_replicate hb]
    decide
  have h₅ : Step maxKeys crc s₄ t none s₅ := .handleWrite _ (Function.update_self ..)
  have h₆ : Step maxKeys crc s₅ t none (s₅.finishWrite t crc [] num name data ⟨hd.sent, []⟩) :=
    .finishWrite (Function.update_self ..) Meeting.plain_delivers
  have hname₅ : (s₅.table num).name = name := by
    change (Function.update s₂.table num _ num).name = name
    rw [Function.update_self]
  obtain ⟨htester, htable, hn⟩ := finishWrite_spec crc t hname₅ [] data
    ⟨hd.sent, []⟩
  refine ⟨_, (((((Trace.single ⟨t, h₁⟩).snoc ⟨t, h₂⟩).snoc ⟨t, h₃⟩).snoc ⟨t, h₄⟩).snoc
    ⟨t, h₅⟩).snoc ⟨t, h₆⟩, ?_, hn, ?_⟩
  · rw [htester]
    simp only [s₅, s₄, s₃, s₂, s₁, goto, setBusy, setEntry, Function.update_idem]
  · have hused : (s₅.finishWrite t crc [] num name data ⟨hd.sent, []⟩).used = insert num s.used := by
      ext i
      rw [mem_used, htable, Finset.mem_insert, mem_used]
      by_cases hi : i = num
      · subst hi
        rw [Function.update_self]
        exact iff_of_true (.inl (show 0 < (List.replicate 20 (65 : UInt8)).length by decide)) (.inl rfl)
      · have hother : s₅.table i = s.table i := by
          change Function.update (Function.update s.table num _) num _ i = _
          rw [Function.update_of_ne hi, Function.update_of_ne hi]
        rw [Function.update_of_ne hi, hother, or_iff_right hi]
    rw [hused, Finset.card_insert_of_notMem hfree]

/-! ## Filling the table -/

variable (crc) in
/-- One thread writes objects, as long as there is room for them, and there are few. -/
theorem exists_fill (hmax : 0 ≤ maxKeys) (hint : maxKeys * 85 < 2 ^ 31) (t : T) {n : ℕ} (hn : n ≤ 150)
    (hlo : (n : ℤ) ≤ (maxKeys * 15).tdiv 100 + 99) : ∃ names, ∃ s : Load T,
      Trace (Steps maxKeys crc) init names s ∧
      names.flatMap Option.toList = (List.range n).map nameOf ∧
      s.tester = (fun _ => .idle) ∧ s.nObjects = n ∧ s.used.card = n := by
  induction n with
  | zero =>
    refine ⟨[], init, .nil, rfl, rfl, rfl, Finset.card_eq_zero.2 ?_⟩
    refine Finset.eq_empty_of_forall_notMem fun i hi => ?_
    rcases mem_used.1 hi with h | h <;> cases h
  | succ n ih =>
    obtain ⟨names, s, h, hnames, htester, hobjects, hused⟩ := ih (by omega) (by omega)
    have hchoose := exists_choose crc hmax hint (show s.tester t = .idle by rw [htester])
      (by rw [hobjects]; omega)
    have hroom : (s.goto t .new).used ≠ Finset.univ := by
      intro he
      have hcard := congrArg Finset.card he
      rw [Finset.card_univ, Fintype.card_fin] at hcard
      change s.used.card = 150 at hcard
      omega
    obtain ⟨s', hwrite, htester', hobjects', hused'⟩ := exists_write maxKeys crc
      (Function.update_self t _ s.tester) hroom (nameOf n) rfl (randstr_nameOf (by omega))
    refine ⟨_, s', (h.append hchoose).append hwrite, ?_, ?_, ?_, ?_⟩
    · rw [List.flatMap_append, List.flatMap_append, hnames, List.range_succ, List.map_append]
      exact congrArg (· ++ _) (List.append_nil _)
    · rw [htester', goto, htester]
      dsimp only
      rw [Function.update_idem]
      exact Function.update_eq_self t _
    · rw [hobjects']
      change s.nObjects + 1 = _
      rw [hobjects]
      rfl
    · rw [hused']
      change s.used.card + 1 = _
      rw [hused]

variable (crc) in
/-- Some threads all choose to write a new object, before any of them counts it. -/
theorem exists_choose_all (hmax : 0 ≤ maxKeys) (hint : maxKeys * 85 < 2 ^ 31) {ts : List T}
    (hts : ts.Nodup) {s : Load T} (hidle : ∀ t ∈ ts, s.tester t = .idle)
    (hn : s.nObjects ≤ (maxKeys * 15).tdiv 100 + 98) :
    ∃ names s', Trace (Steps maxKeys crc) s names s' ∧ names.flatMap Option.toList = [] ∧
      (∀ t ∈ ts, s'.tester t = .new) ∧ (∀ t ∉ ts, s'.tester t = s.tester t) ∧
      s'.nObjects = s.nObjects ∧ s'.used = s.used := by
  induction ts generalizing s with
  | nil => exact ⟨[], s, .nil, rfl, fun _ h => absurd h List.not_mem_nil, fun _ _ => rfl, rfl, rfl⟩
  | cons t ts ih =>
    obtain ⟨ht, hts⟩ := List.nodup_cons.1 hts
    have hchoose := exists_choose crc hmax hint (hidle t List.mem_cons_self) hn
    have hne : ∀ u ∈ ts, u ≠ t := fun u hu he => ht (he ▸ hu)
    obtain ⟨names, s', h, hnames, hnew, hother, hobjects, hused⟩ := @ih hts (s.goto t .new)
      (fun u hu => (Function.update_of_ne (hne u hu) ..).trans
        (hidle u (List.mem_cons_of_mem _ hu))) hn
    refine ⟨_, s', hchoose.append h, ?_, fun u hu => ?_, fun u hu => ?_, hobjects, hused⟩
    · rw [List.flatMap_append, hnames]
      rfl
    · rcases List.mem_cons.1 hu with rfl | hu
      · exact (hother u ht).trans (Function.update_self ..)
      · exact hnew u hu
    · obtain ⟨hut, hu⟩ := not_or.1 (List.mem_cons.not.1 hu)
      exact (hother u hu).trans (Function.update_of_ne hut ..)

variable (maxKeys crc) in
/-- Threads that have chosen to write a new object do so one after the other. -/
theorem exists_write_all {ts : List T} (hts : ts.Nodup) {s : Load T}
    (hnew : ∀ t ∈ ts, s.tester t = .new) (hroom : s.used.card + ts.length ≤ 150) :
    ∃ names s', Trace (Steps maxKeys crc) s names s' ∧
      names.flatMap Option.toList = (List.range' s.used.card ts.length).map nameOf ∧
      (∀ t ∉ ts, s'.tester t = s.tester t) ∧ s'.used.card = s.used.card + ts.length := by
  induction ts generalizing s with
  | nil => exact ⟨[], s, .nil, rfl, fun _ _ => rfl, rfl⟩
  | cons t ts ih =>
    obtain ⟨ht, hts⟩ := List.nodup_cons.1 hts
    rw [List.length_cons] at hroom
    have hfree : s.used ≠ Finset.univ := by
      intro he
      have hcard := congrArg Finset.card he
      rw [Finset.card_univ, Fintype.card_fin] at hcard
      omega
    obtain ⟨s₁, hwrite, htester, -, hused⟩ := exists_write maxKeys crc
      (hnew t List.mem_cons_self) hfree (nameOf s.used.card) rfl (randstr_nameOf (by omega))
    have hne : ∀ u ∈ ts, u ≠ t := fun u hu he => ht (he ▸ hu)
    obtain ⟨names, s', h, hnames, hother, hused'⟩ := @ih hts s₁
      (fun u hu => by
        rw [htester, Function.update_of_ne (hne u hu)]
        exact hnew u (List.mem_cons_of_mem _ hu)) (by omega)
    refine ⟨_, s', hwrite.append h, ?_, fun u hu => ?_, ?_⟩
    · rw [List.flatMap_append, hnames, hused, List.length_cons, List.range'_succ]
      rfl
    · obtain ⟨hut, hu⟩ := not_or.1 (List.mem_cons.not.1 hu)
      rw [hother u hu, htester, Function.update_of_ne hut]
    · rw [hused', hused, List.length_cons]
      omega

/-- If there are too many threads, one of them uses the memory after the table. -/
theorem exists_overrun [Fintype T] [Nonempty T] (hmax : 0 ≤ maxKeys) (hint : maxKeys * 85 < 2 ^ 31)
    (hmany : 52 < (maxKeys * 15).tdiv 100 + Fintype.card T) : ∃ names, ∃ s : Load T,
      Trace (Steps maxKeys crc) init names s ∧ (names.flatMap Option.toList).Nodup ∧
      Fault.overrun ∈ s.faults := by
  have hlo : 0 ≤ (maxKeys * 15).tdiv 100 := by
    rw [Int.tdiv_eq_ediv_of_nonneg (by omega)]
    omega
  have hcard : 0 < Fintype.card T := Fintype.card_pos
  -- As many objects as one thread writes, and as many threads as it then takes.
  obtain ⟨n, hn, hnlo, hthreads⟩ : ∃ n : ℕ, n ≤ 150 ∧ (n : ℤ) ≤ (maxKeys * 15).tdiv 100 + 98 ∧
      151 - n ≤ Fintype.card T := by
    by_cases hlarge : 52 ≤ (maxKeys * 15).tdiv 100
    · exact ⟨150, le_refl _, by omega, by omega⟩
    · refine ⟨((maxKeys * 15).tdiv 100).toNat + 98, ?_, ?_, ?_⟩ <;> omega
  obtain ⟨t, ts, hnodup, hlength⟩ : ∃ (t : T) (ts : List T), (t :: ts).Nodup ∧
      ts.length = 150 - n := by
    have hlen : ((Finset.univ : Finset T).toList.take (151 - n)).length = 150 - n + 1 := by
      rw [List.length_take, Finset.length_toList, Finset.card_univ]
      omega
    obtain ⟨t, ts, he⟩ := List.exists_cons_of_length_eq_add_one hlen
    rw [he] at hlen
    refine ⟨t, ts, he ▸ ((Finset.nodup_toList _).sublist (List.take_sublist _ _)),
      Nat.succ.inj hlen⟩
  obtain ⟨ht, hts⟩ := List.nodup_cons.1 hnodup
  obtain ⟨names₁, s₁, h₁, hnames₁, htester₁, hobjects₁, hused₁⟩ :=
    exists_fill crc hmax hint t hn (by omega)
  obtain ⟨names₂, s₂, h₂, hnames₂, hnew₂, -, -, hused₂⟩ := exists_choose_all crc hmax hint hnodup
    (fun u _ => by rw [htester₁]) (by rw [hobjects₁]; exact hnlo)
  rw [← hused₂] at hused₁
  obtain ⟨names₃, s₃, h₃, hnames₃, hother₃, hused₃⟩ := exists_write_all maxKeys crc hts
    (fun u hu => hnew₂ u (List.mem_cons_of_mem _ hu)) (by omega)
  -- No entry is free any more, and one thread has not got one yet.
  have hfull : s₃.used = Finset.univ :=
    Finset.card_eq_iff_eq_univ _ |>.1 (by rw [Fintype.card_fin]; omega)
  let s₄ : Load T := { s₃ with nObjects := s₃.nObjects + 1 }.goto t .counted
  have h₄ : Step maxKeys crc s₃ t none s₄ :=
    .count ((hother₃ t ht).trans (hnew₂ t List.mem_cons_self))
  have h₅ : Step maxKeys crc s₄ t (some (nameOf 150)) _ :=
    .getFree (Function.update_self ..) rfl (randstr_nameOf (by decide))
  have hnone : Db.getFree s₃.table = none := by
    have hspec := getFree_spec (s := s₃)
    cases h : Db.getFree s₃.table with
    | none => rfl
    | some num =>
      rw [h, hfull] at hspec
      exact absurd (Finset.mem_univ num) hspec
  rw [show Db.getFree s₄.table = none from hnone] at h₅
  refine ⟨_, _, (((h₁.append h₂).append h₃).snoc ⟨t, h₄⟩).snoc ⟨t, h₅⟩, ?_,
    List.mem_append_right _ List.mem_cons_self⟩
  have hflat : (((names₁ ++ names₂) ++ names₃ ++ [none]) ++ [some (nameOf 150)]).flatMap
      Option.toList = (List.range 151).map nameOf := by
    have hrange : List.range 151 = List.range n ++ List.range' n (150 - n) ++ [150] := by
      rw [List.range_succ, List.range_eq_range', List.range_eq_range',
        show (150 : ℕ) = n + (150 - n) by omega, ← List.range'_append_1]
      simp
    simp only [List.flatMap_append, hnames₁, hnames₂, hnames₃, hused₁, hlength, hrange,
      List.map_append, List.append_nil, List.flatMap_singleton, Option.toList_none,
      Option.toList_some, List.map_singleton]
  rw [hflat]
  refine (List.nodup_range).map_on fun i hi j hj he => ?_
  have hi := List.mem_range.1 hi
  have hj := List.mem_range.1 hj
  exact nameOf_injOn (by omega) (by omega) he

end Load

/-- The load test can use the memory after its table if and only if the number of its threads and 15%
    of `max` are more than 52, as long as `max` is not so large that `get_op` overflows. -/
theorem overrun_iff {T : Type*} [DecidableEq T] [Fintype T] [Nonempty T] {maxKeys : ℤ}
    (crc : List UInt8 → ℤ) (hmax : 0 ≤ maxKeys) (hint : maxKeys * 85 < 2 ^ 31) :
    (∃ names, ∃ s : Load T, Traces.Trace (Load.Steps maxKeys crc) .init names s ∧
      (names.flatMap Option.toList).Nodup ∧ Fault.overrun ∈ s.faults) ↔
      52 < (maxKeys * 15).tdiv 100 + Fintype.card T := by
  constructor
  · rintro ⟨names, s, h, hnames, hfault⟩
    by_contra hroom
    obtain ⟨key, m, owner, hs⟩ := Load.tested_of_trace hmax (not_lt.1 hroom) h hnames
    rw [hs.clean.2] at hfault
    exact List.not_mem_nil hfault
  · exact Load.exists_overrun hmax hint

/-- With the default of 200 for `max`, 23 threads are too many. -/
theorem overrun_iff_default : ∃ names, ∃ s : Load (Fin 23),
    Traces.Trace (Load.Steps 200 fun _ => 0) .init names s ∧
      (names.flatMap Option.toList).Nodup ∧ Fault.overrun ∈ s.faults :=
  (overrun_iff _ (by decide) (by decide)).2 (by rw [Fintype.card_fin]; decide)

end Cs5600.Db
