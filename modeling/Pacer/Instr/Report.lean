import Pacer.Instr.Stats
import Pacer.Lib.Binary64

set_option autoImplicit false

/-! # The line that a thread prints

`report` formats the counters into a static buffer of 8192 characters with one `snprintf` for
the counters and one for each nonzero cell of the histogram, and writes the buffer out in one
piece. Memory is a function from places to characters, with the buffer at place `0`, so that a
character written past the end of the buffer would be seen. The worst case of all fields is
shorter than the bound at which the loop over the cells gives up (`length_headText_le`,
`length_cellText_le`); hence every cell is printed and nothing but the buffer is written
(`report_eq`, `report_frame`).
-/

namespace Pacer.Pinstr

/-! ## Formats -/

/-- `%llu` -/
def llu (n : Nat) : List Char := Nat.toDigits 10 n

/-- `%d` -/
def fmtInt (z : Int) : List Char :=
  if z < 0 then '-' :: Nat.toDigits 10 z.natAbs else Nat.toDigits 10 z.natAbs

/-- `%.1f` of a double `x ≥ 0` -/
def fmtTenths (x : ℚ) : List Char :=
  let tenths := (Binary64.halfEven (x * 10)).toNat
  Nat.toDigits 10 (tenths / 10) ++ '.' :: Nat.toDigits 10 (tenths % 10)

/-- `s.samples ? (double)s.sum / s.samples : 0.0` -/
def ThreadStats.avg (s : ThreadStats) : ℚ :=
  if s.samples = 0 then 0
  else Binary64.round (Binary64.round s.sum / Binary64.round s.samples)

/-- The counters, as the first `snprintf` prints them. -/
def headText (s : ThreadStats) (tid : Int) : List Char :=
  "INSTR tid=".toList ++ fmtInt tid ++ " ops=".toList ++ llu s.ops
    ++ " retired=".toList ++ llu s.retired ++ " freed=".toList ++ llu s.freed
    ++ " peak=".toList ++ llu s.peak ++ " avg=".toList ++ fmtTenths s.avg
    ++ " maxcyc=".toList ++ llu s.maxcyc ++ " hist=".toList

/-- `"%d:%llu,"` -/
def cellText (e : Nat × Nat) : List Char := fmtInt e.1 ++ ':' :: llu e.2 ++ [',']

/-! ## `snprintf` into a buffer -/

/-- `sizeof buf` -/
def bufSize : Nat := 8192

/-- Memory after the characters `cs` are stored from place `pos` on. -/
def store (buf : Nat → Char) (pos : Nat) (cs : List Char) : Nat → Char := fun j =>
  if pos ≤ j then (cs[j - pos]?).getD (buf j) else buf j

/-- `snprintf(buf + pos, size, ..)` where `text` is the formatted output: it stores what fits
before a terminating NUL, and returns the length of the whole text. -/
def snprintf (buf : Nat → Char) (pos size : Nat) (text : List Char) : (Nat → Char) × Nat :=
  (if size = 0 then buf else store buf pos (text.take (size - 1) ++ [Char.ofNat 0]), text.length)

/-- The first `n` characters in memory. -/
def read (buf : Nat → Char) (n : Nat) : List Char := (List.range n).map buf

theorem store_of_lt {buf : Nat → Char} {pos j : Nat} {cs : List Char} (h : j < pos) :
    store buf pos cs j = buf j :=
  if_neg (not_le.mpr h)

theorem store_of_le {buf : Nat → Char} {pos j : Nat} {cs : List Char}
    (h : pos + cs.length ≤ j) : store buf pos cs j = buf j := by
  rw [store, if_pos (by omega), List.getElem?_eq_none (by omega), Option.getD_none]

/-- What is read behind `pos` is what was stored there. -/
theorem read_store (buf : Nat → Char) (pos k : Nat) {cs : List Char} (h : k ≤ cs.length) :
    read (store buf pos cs) (pos + k) = read buf pos ++ cs.take k := by
  unfold read
  rw [List.range_add, List.map_append, List.map_map]
  congr 1
  · apply List.map_congr_left
    intro j hj
    exact store_of_lt (List.mem_range.mp hj)
  · apply List.ext_getElem
    · simp [h]
    · intro j hj hj'
      have hlt : j < cs.length := by
        rw [List.length_map, List.length_range] at hj
        omega
      simp [store, List.getElem?_eq_getElem hlt]

/-- **`snprintf` that has room** appends the text and writes inside its part of the buffer. -/
theorem snprintf_spec (buf : Nat → Char) (pos : Nat) {size : Nat} {text : List Char}
    (h : text.length < size) :
    (snprintf buf pos size text).2 = text.length
      ∧ read (snprintf buf pos size text).1 (pos + text.length) = read buf pos ++ text
      ∧ ∀ j, pos + size ≤ j → (snprintf buf pos size text).1 j = buf j := by
  have htake : text.take (size - 1) = text := List.take_of_length_le (by omega)
  have hstore : (snprintf buf pos size text).1 = store buf pos (text ++ [Char.ofNat 0]) := by
    show (if size = 0 then buf else _) = _
    rw [if_neg (by omega), htake]
  refine ⟨rfl, ?_, fun j hj => ?_⟩
  · rw [hstore, read_store buf pos text.length (by simp), List.take_left']
    rfl
  · rw [hstore, store_of_le]
    rw [List.length_append, List.length_singleton]
    omega

/-! ## `report` -/

/-- The loop over the cells, with `n` characters in the buffer. -/
def reportLoop (hist : Nat → Nat) : List Nat → (Nat → Char) → Nat → (Nat → Char) × Nat
  | [], buf, n => (buf, n)
  | i :: is, buf, n =>
      if n < bufSize - 40 then
        if hist i = 0 then reportLoop hist is buf n
        else
          let r := snprintf buf n (bufSize - n) (cellText (i, hist i))
          reportLoop hist is r.1 (n + r.2)
      else (buf, n)

/-- `report`: memory afterwards and the characters passed to `write`. -/
def report (buf : Nat → Char) (s : ThreadStats) (tid : Int) : (Nat → Char) × List Char :=
  let r := snprintf buf 0 bufSize (headText s tid)
  let r := reportLoop s.hist (List.range 256) r.1 r.2
  let buf := store r.1 r.2 ['\n']
  let n := r.2 + 1
  (buf, read buf n)

/-! ## How long the fields get -/

/-- The counters and cells fit into 64 bits. -/
structure ThreadStats.Bounded (s : ThreadStats) : Prop where
  retired : s.retired < 2 ^ 64
  freed : s.freed < 2 ^ 64
  ops : s.ops < 2 ^ 64
  peak : s.peak < 2 ^ 64
  sum : s.sum < 2 ^ 64
  samples : s.samples < 2 ^ 64
  maxcyc : s.maxcyc < 2 ^ 64
  hist : ∀ i, s.hist i < 2 ^ 64

theorem length_llu_le {n : Nat} (h : n < 2 ^ 64) : (llu n).length ≤ 20 :=
  (Nat.length_toDigits_le_iff (by decide) (by decide)).mpr (h.trans (by decide))

theorem length_fmtInt_le {z : Int} (h : -2 ^ 31 ≤ z ∧ z < 2 ^ 31) : (fmtInt z).length ≤ 11 := by
  have habs : z.natAbs < 10 ^ 10 := by omega
  have hlen : (Nat.toDigits 10 z.natAbs).length ≤ 10 :=
    (Nat.length_toDigits_le_iff (by decide) (by decide)).mpr habs
  unfold fmtInt
  split
  · rw [List.length_cons]
    omega
  · omega

/-- A double divided by one that is at least `1` and rounded: still at most `2^64`. -/
theorem avg_mem {s : ThreadStats} (h : s.sum < 2 ^ 64) : 0 ≤ s.avg ∧ s.avg ≤ 2 ^ 64 := by
  unfold ThreadStats.avg
  split
  · norm_num
  · rename_i hne
    have hsum : Binary64.round s.sum ≤ 2 ^ (64 : Int) := by
      apply Binary64.round_le_two_pow (Nat.cast_nonneg _)
      exact_mod_cast h.le
    have hsum0 : 0 ≤ Binary64.round s.sum := Binary64.round_nonneg (Nat.cast_nonneg _)
    have hsamples : (1 : ℚ) ≤ Binary64.round s.samples := by
      have hone : (2 : ℚ) ^ (0 : Int) ≤ s.samples := by
        rw [zpow_zero]
        exact_mod_cast Nat.one_le_iff_ne_zero.mpr hne
      simpa using Binary64.two_pow_le_round hone
    have hquot0 : 0 ≤ Binary64.round s.sum / Binary64.round s.samples :=
      div_nonneg hsum0 (zero_le_one.trans hsamples)
    have hquot : Binary64.round s.sum / Binary64.round s.samples ≤ 2 ^ (64 : Int) :=
      (div_le_self hsum0 hsamples).trans hsum
    refine ⟨Binary64.round_nonneg hquot0, ?_⟩
    exact_mod_cast Binary64.round_le_two_pow hquot0 hquot

theorem length_fmtTenths_le {x : ℚ} (h : x ≤ 2 ^ 64) : (fmtTenths x).length ≤ 22 := by
  have htenths : Binary64.halfEven (x * 10) ≤ 2 ^ 64 * 10 := by
    apply Binary64.halfEven_le
    push_cast
    linarith
  unfold fmtTenths
  generalize Binary64.halfEven (x * 10) = tenths at htenths
  have hint : (Nat.toDigits 10 (tenths.toNat / 10)).length ≤ 20 := by
    rw [Nat.length_toDigits_le_iff (by decide) (by decide)]
    omega
  have hfrac : (Nat.toDigits 10 (tenths.toNat % 10)).length ≤ 1 := by
    rw [Nat.length_toDigits_le_iff (by decide) (by decide)]
    omega
  rw [List.length_append, List.length_cons]
  omega

/-- The first `snprintf` never prints more than 189 characters. -/
theorem length_headText_le {s : ThreadStats} (hs : s.Bounded) {tid : Int}
    (htid : -2 ^ 31 ≤ tid ∧ tid < 2 ^ 31) : (headText s tid).length ≤ 189 := by
  have htidLen := length_fmtInt_le htid
  have hops := length_llu_le hs.ops
  have hretired := length_llu_le hs.retired
  have hfreed := length_llu_le hs.freed
  have hpeak := length_llu_le hs.peak
  have hmaxcyc := length_llu_le hs.maxcyc
  have havg := length_fmtTenths_le (avg_mem hs.sum).2
  -- the words between the numbers take 56 characters
  have hwords : "INSTR tid=".toList.length = 10 ∧ " ops=".toList.length = 5
      ∧ " retired=".toList.length = 9 ∧ " freed=".toList.length = 7
      ∧ " peak=".toList.length = 6 ∧ " avg=".toList.length = 5
      ∧ " maxcyc=".toList.length = 8 ∧ " hist=".toList.length = 6 := by decide
  obtain ⟨h₁, h₂, h₃, h₄, h₅, h₆, h₇, h₈⟩ := hwords
  unfold headText
  simp only [List.length_append, h₁, h₂, h₃, h₄, h₅, h₆, h₇, h₈]
  omega

theorem length_cellText_le {i c : Nat} (hi : i < 256) (hc : c < 2 ^ 64) :
    (cellText (i, c)).length ≤ 25 := by
  have hidx : (fmtInt (i : Int)).length ≤ 3 := by
    unfold fmtInt
    rw [if_neg (by omega)]
    exact (Nat.length_toDigits_le_iff (by decide) (by decide)).mpr (by omega)
  have hcount := length_llu_le hc
  simp only [cellText, List.length_append, List.length_cons, List.length_nil]
  omega

/-! ## What `report` prints -/

/-- The texts of the nonzero cells among `is`. -/
def cellTexts (hist : Nat → Nat) (is : List Nat) : List Char :=
  (is.filterMap fun i => if hist i = 0 then none else some (i, hist i)).flatMap cellText

theorem cellTexts_cons (hist : Nat → Nat) (i : Nat) (is : List Nat) :
    cellTexts hist (i :: is)
      = (if hist i = 0 then [] else cellText (i, hist i)) ++ cellTexts hist is := by
  unfold cellTexts
  rw [List.filterMap_cons]
  by_cases h : hist i = 0
  · simp [h]
  · simp [h]

/-- **The loop over the cells** appends every nonzero cell when there is room for the longest
texts. -/
theorem reportLoop_spec {hist : Nat → Nat} (hhist : ∀ i, hist i < 2 ^ 64) {is : List Nat}
    (his : ∀ i ∈ is, i < 256) (buf : Nat → Char) {n : Nat}
    (hroom : n + 25 * is.length ≤ bufSize - 40) :
    (reportLoop hist is buf n).2 = n + (cellTexts hist is).length
      ∧ (reportLoop hist is buf n).2 ≤ n + 25 * is.length
      ∧ read (reportLoop hist is buf n).1 (reportLoop hist is buf n).2
          = read buf n ++ cellTexts hist is
      ∧ ∀ j, bufSize ≤ j → (reportLoop hist is buf n).1 j = buf j := by
  induction is generalizing buf n with
  | nil => simp [reportLoop, cellTexts]
  | cons i is ih =>
      rw [List.length_cons] at hroom
      have hguard : n < bufSize - 40 := by omega
      have hrest : ∀ i ∈ is, i < 256 := fun j hj => his j (List.mem_cons_of_mem i hj)
      rw [cellTexts_cons, reportLoop, if_pos hguard]
      by_cases hi : hist i = 0
      · simp only [if_pos hi, List.nil_append]
        obtain ⟨hlen, hle, hread, hframe⟩ :=
          ih hrest buf (show n + 25 * is.length ≤ bufSize - 40 by omega)
        exact ⟨hlen, by rw [List.length_cons]; omega, hread, hframe⟩
      · simp only [if_neg hi]
        -- the text of the cell fits, and the loop goes on behind it
        have hcell := length_cellText_le (his i List.mem_cons_self) (hhist i)
        have hsize : (cellText (i, hist i)).length < bufSize - n := by omega
        obtain ⟨hret, hwrite, hkeep⟩ := snprintf_spec buf n hsize
        have hroom' : n + (snprintf buf n (bufSize - n) (cellText (i, hist i))).2
            + 25 * is.length ≤ bufSize - 40 := by omega
        obtain ⟨hlen, hle, hread, hframe⟩ := ih hrest _ hroom'
        refine ⟨?_, ?_, ?_, fun j hj => ?_⟩
        · rw [hlen, hret, List.length_append]
          omega
        · rw [List.length_cons]
          omega
        · rw [hread, hret, hwrite, List.append_assoc]
        · rw [hframe j hj, hkeep j (by omega)]

/-- The line without its newline. -/
def lineText (s : ThreadStats) (tid : Int) : List Char := headText s tid ++ s.cells.flatMap cellText

section

variable {s : ThreadStats} (hs : s.Bounded) {tid : Int} (htid : -2 ^ 31 ≤ tid ∧ tid < 2 ^ 31)
  (buf : Nat → Char)

include hs htid

/-- **`report` writes the counters and every nonzero cell**, inside its buffer. -/
theorem report_eq :
    (report buf s tid).2 = lineText s tid ++ ['\n']
      ∧ (report buf s tid).2.length ≤ bufSize
      ∧ ∀ j, bufSize ≤ j → (report buf s tid).1 j = buf j := by
  have hhead := length_headText_le hs htid
  have hfits : (headText s tid).length < bufSize := by
    unfold bufSize
    omega
  have hroom : (headText s tid).length + 25 * (List.range 256).length ≤ bufSize - 40 := by
    rw [List.length_range]
    unfold bufSize
    omega
  obtain ⟨hret, hwrite, hkeep⟩ := snprintf_spec buf 0 hfits
  rw [Nat.zero_add] at hwrite
  rw [← hret] at hroom hwrite hhead
  obtain ⟨hlen, hle, hread, hframe⟩ := reportLoop_spec hs.hist
    (fun i hi => List.mem_range.mp hi) (snprintf buf 0 bufSize (headText s tid)).1 hroom
  rw [List.length_range] at hle
  unfold report
  dsimp only
  generalize snprintf buf 0 bufSize (headText s tid) = r at *
  generalize reportLoop s.hist (List.range 256) r.1 r.2 = r' at *
  have hend : r'.2 + 1 ≤ bufSize := by
    unfold bufSize
    omega
  have hline : read (store r'.1 r'.2 ['\n']) (r'.2 + 1) = lineText s tid ++ ['\n'] := by
    calc read (store r'.1 r'.2 ['\n']) (r'.2 + 1)
        = read r'.1 r'.2 ++ ['\n'] := read_store r'.1 r'.2 1 le_rfl
      _ = (read r.1 r.2 ++ cellTexts s.hist (List.range 256)) ++ ['\n'] := by rw [hread]
      _ = lineText s tid ++ ['\n'] := by rw [hwrite]; rfl
  refine ⟨hline, ?_, fun j hj => ?_⟩
  · simpa [read] using hend
  · rw [store_of_le (by simpa using hend.trans hj), hframe j hj, hkeep j (by omega)]

end

end Pacer.Pinstr
