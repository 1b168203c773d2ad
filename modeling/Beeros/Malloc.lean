import Beeros.Memory

/-! The size-class allocator of `kernel/malloc.c` over the `_sbrk` of `kernel/syscall_stubs.c`.
Memory is byte-addressed, a pointer is its address and `NULL` is `0`. Sizes are `size_t` values, so
every sum the C code can overflow is taken modulo `2 ^ 64`. A block is a 16-byte header (`cls` at
`h`, `offset` at `h + 8`) followed by its payload; a free block keeps its list link in the first
eight payload bytes. -/

namespace Beeros.Malloc

open Memory

/-- `ALIGN`. -/
def alignment : Nat := 16
/-- `SMALL_MAX`: the small classes are 16, 32, … 2048. -/
def smallMax : Nat := 2048
/-- `SMALL_COUNT`. -/
def smallCount : Nat := smallMax / alignment
/-- `LARGE_COUNT`: 4 KiB shifted left by 0 … 19. -/
def largeCount : Nat := 20
/-- `CLASSES`. -/
def classes : Nat := smallCount + largeCount
/-- `sizeof(Header)`. -/
def headerSize : Nat := 16
/-- The value `malloc.c` and `_sbrk` store in `errno`. -/
def enomem : Nat := 12

/-- The `while` loop of `class_of`: final `size` and `c`. The loop runs at most
`CLASSES - 1 - SMALL_COUNT` times, so a fuel of `LARGE_COUNT` never runs out. -/
def classLoop (n : Nat) : Nat → Nat → Nat → Nat × Nat
  | 0, size, c => (size, c)
  | fuel + 1, size, c =>
      if size < n ∧ c < classes - 1 then classLoop n fuel (size * 2 % 2 ^ 64) (c + 1) else (size, c)

def classOf (n : Nat) : Nat :=
  if n ≤ smallMax then
    if n = 0 then 0 else (n - 1) / alignment
  else
    let r := classLoop n largeCount (2 * smallMax) smallCount
    if r.1 < n then classes else r.2

def classSize (c : Nat) : Nat :=
  if c < smallCount then (c + 1) * alignment else 2 * smallMax * 2 ^ (c - smallCount)

/-- The linker symbols `__heap_start` and `__heap_end`. Both boards align the start to 16 and keep
the heap below 4 GiB, so `brk + incr` in `_sbrk` does not wrap. -/
structure Heap where
  start : Nat
  stop : Nat
  start_pos : 0 < start
  start_aligned : 16 ∣ start
  start_le_stop : start ≤ stop
  stop_lt : stop < 2 ^ 32

structure State where
  mem : Bytes
  /-- `static char *brk`, `0` before the first call of `_sbrk`. -/
  brk : Nat
  freeLists : Nat → Nat
  errno : Nat

variable (heap : Heap)

def headerCls (m : Bytes) (h : Nat) : Nat := loadLE m 8 h

def headerOffset (m : Bytes) (h : Nat) : Nat := loadLE m 8 (h + 8)

def setCls (m : Bytes) (h v : Nat) : Bytes := storeLE m 8 h v

def setOffset (m : Bytes) (h v : Nat) : Bytes := storeLE m 8 (h + 8) v

/-- `*(void**)(h + 1)`: the free-list link of a free block. -/
def link (m : Bytes) (h : Nat) : Nat := loadLE m 8 (h + headerSize)

def setLink (m : Bytes) (h v : Nat) : Bytes := storeLE m 8 (h + headerSize) v

def headerOf (m : Bytes) (p : Nat) : Nat :=
  let h := p - headerSize
  if headerOffset m h ≠ 0 then h - headerOffset m h else h

def sbrk (s : State) (incr : Nat) : Option Nat × State :=
  let brk := if s.brk = 0 then heap.start else s.brk
  if brk + incr > heap.stop then (none, { s with brk := brk, errno := enomem })
  else (some brk, { s with brk := brk + incr })

def malloc (s : State) (n : Nat) : Nat × State :=
  let c := classOf n
  if c ≥ classes then (0, { s with errno := enomem })
  else
    let h := s.freeLists c
    if h ≠ 0 then
      (h + headerSize,
        { s with
          freeLists := Function.update s.freeLists c (link s.mem h)
          mem := setOffset s.mem h 0 })
    else
      match sbrk heap s (headerSize + classSize c) with
      | (none, s') => (0, { s' with errno := enomem })
      | (some h, s') => (h + headerSize, { s' with mem := setOffset (setCls s'.mem h c) h 0 })

def free (s : State) (p : Nat) : State :=
  if p = 0 then s
  else
    let h := headerOf s.mem p
    let m := setOffset s.mem h 0
    { s with
      mem := setLink m h (s.freeLists (headerCls m h))
      freeLists := Function.update s.freeLists (headerCls m h) h }

/-- The difference of two `size_t` values. -/
def sizeSub (a b : Nat) : Nat := if b ≤ a then a - b else 2 ^ 64 - (b - a)

def usable (s : State) (p : Nat) : Nat :=
  let h := headerOf s.mem p
  sizeSub (classSize (headerCls s.mem h)) (sizeSub p (h + headerSize))

def mallocUsableSize (s : State) (p : Nat) : Nat := if p = 0 then 0 else usable s p

def realloc (s : State) (p n : Nat) : Nat × State :=
  if p = 0 then malloc heap s n
  else
    let have_ := usable s p
    if n ≤ have_ then (p, s)
    else
      let (q, s') := malloc heap s n
      if q = 0 then (0, s')
      else (q, free { s' with mem := copy s'.mem q s'.mem p have_ } p)

def calloc (s : State) (count size : Nat) : Nat × State :=
  if count * size ≥ 2 ^ 64 then (0, { s with errno := enomem })
  else
    let (p, s') := malloc heap s (count * size)
    if p = 0 then (0, s') else (p, { s' with mem := fill s'.mem p (count * size) 0 })

/-- `(base + align - 1) & ~(align - 1)` on 64-bit words. -/
def alignUp (base align : Nat) : Nat :=
  (base + align - 1) % 2 ^ 64 &&& (2 ^ 64 - 1 - (align - 1))

def alignedAlloc (s : State) (align n : Nat) : Nat × State :=
  if align ≤ alignment then malloc heap s n
  else
    let (base, s') := malloc heap s ((n + align) % 2 ^ 64)
    if base = 0 then (0, s')
    else
      let p := alignUp base align
      if p ≠ base then
        let h := p - headerSize
        (p, { s' with mem := setOffset s'.mem h (h - (base - headerSize)) })
      else (p, s')

def memalign (s : State) (align n : Nat) : Nat × State := alignedAlloc heap s align n

/-- The `int` result and what is stored through `out`. -/
def posixMemalign (s : State) (align n : Nat) : (Nat × Option Nat) × State :=
  let (p, s') := alignedAlloc heap s align n
  if p = 0 then ((enomem, none), s') else ((0, some p), s')

theorem sizeSub_of_le {a b : Nat} (h : b ≤ a) : sizeSub a b = a - b := if_pos h

/-! ### Size classes -/

theorem classSize_small {c : Nat} (hc : c < smallCount) : classSize c = (c + 1) * 16 := by
  rw [classSize, if_pos hc, alignment]

theorem classSize_large {c : Nat} (hc : smallCount ≤ c) :
    classSize c = 4096 * 2 ^ (c - smallCount) := by
  rw [classSize, if_neg (by omega), smallMax]

theorem sixteen_dvd_classSize (c : Nat) : 16 ∣ classSize c := by
  by_cases hc : c < smallCount
  · rw [classSize_small hc]
    exact Dvd.intro_left _ rfl
  · rw [classSize_large (not_lt.mp hc)]
    exact Dvd.dvd.mul_right (by decide) _

theorem sixteen_le_classSize (c : Nat) : 16 ≤ classSize c := by
  by_cases hc : c < smallCount
  · rw [classSize_small hc]
    omega
  · rw [classSize_large (not_lt.mp hc)]
    have : 0 < 2 ^ (c - smallCount) := Nat.two_pow_pos _
    omega

theorem classSize_le {c : Nat} (hc : c < classes) : classSize c ≤ 2 ^ 31 := by
  have hclasses : classes = 148 := rfl
  have hsmall : smallCount = 128 := rfl
  by_cases h : c < smallCount
  · rw [classSize_small h]
    omega
  · rw [classSize_large (not_lt.mp h)]
    have hpow : 2 ^ (c - smallCount) ≤ 2 ^ 19 := Nat.pow_le_pow_right (by decide) (by omega)
    omega

/-- The next large class is twice as large, and `size` does not wrap around. -/
theorem classSize_double {size c : Nat} (hc : smallCount ≤ c) (hlt : c < classes - 1) (hsize : size = classSize c) :
    size * 2 % 2 ^ 64 = classSize (c + 1) := by
  have hlarge : classSize (c + 1) = size * 2 := by
    rw [hsize, classSize_large hc, classSize_large (by omega),
      show c + 1 - smallCount = c - smallCount + 1 by omega, pow_succ, Nat.mul_assoc]
  have hle := classSize_le (c := c + 1) (by omega)
  rw [← hlarge, Nat.mod_eq_of_lt (by omega)]

/-- The loop keeps `size = class_size(c)` and leaves with its test false. -/
theorem classLoop_spec (n fuel size c : Nat) (hc : smallCount ≤ c) (hcl : c < classes)
    (hsize : size = classSize c) (hfuel : classes - 1 - c ≤ fuel) :
    let r := classLoop n fuel size c
    smallCount ≤ r.2 ∧ r.2 < classes ∧ r.1 = classSize r.2 ∧ ¬(r.1 < n ∧ r.2 < classes - 1) := by
  induction fuel generalizing size c with
  | zero =>
      refine ⟨hc, hcl, hsize, ?_⟩
      simp only [classLoop]
      omega
  | succ fuel ih =>
      rw [classLoop]
      split_ifs with h
      · exact ih _ _ (by omega) (by omega) (classSize_double hc h.2 hsize) (by omega)
      · exact ⟨hc, hcl, hsize, h⟩

/-- The loop leaves the first class large enough: the class below is too small. -/
theorem classLoop_low {n fuel size c : Nat} (hsize : size = classSize c) (hc : smallCount ≤ c)
    (hlow : classSize (c - 1) < n) : classSize ((classLoop n fuel size c).2 - 1) < n := by
  have hclasses : classes = 148 := rfl
  have hsmall : smallCount = 128 := rfl
  induction fuel generalizing size c with
  | zero => exact hlow
  | succ fuel ih =>
      rw [classLoop]
      split_ifs with h
      · have hnext : classSize (c + 1 - 1) < n := by
          rw [Nat.add_sub_cancel, ← hsize]
          exact h.1
        exact ih (classSize_double hc h.2 hsize) (by omega) hnext
      · exact hlow

theorem classSize_strictMono : StrictMono classSize := by
  have hsmall : smallCount = 128 := rfl
  refine strictMono_nat_of_lt_succ fun c => ?_
  by_cases hc : c + 1 < smallCount
  · rw [classSize_small hc, classSize_small (by omega)]
    omega
  · rw [classSize_large (not_lt.mp hc)]
    by_cases hlast : c < smallCount
    · rw [classSize_small hlast, show c + 1 - smallCount = 0 by omega]
      omega
    · rw [classSize_large (not_lt.mp hlast), show c + 1 - smallCount = c - smallCount + 1 by omega, pow_succ]
      have := Nat.two_pow_pos (c - smallCount)
      omega

/-- What `class_of` gives for a large request. -/
theorem classOf_large {n : Nat} (hn : smallMax < n) : ∃ c < classes, classSize (c - 1) < n ∧
    (n ≤ classSize c ∨ c = classes - 1) ∧ classOf n = if classSize c < n then classes else c := by
  have hstart : 2 * smallMax = classSize smallCount := by
    rw [classSize_large le_rfl, Nat.sub_self]
    rfl
  obtain ⟨-, hlt, hsize, hstop⟩ :=
    classLoop_spec n largeCount (2 * smallMax) smallCount le_rfl (by decide) hstart (by decide)
  refine ⟨(classLoop n largeCount (2 * smallMax) smallCount).2, hlt, classLoop_low hstart le_rfl hn, ?_, ?_⟩
  · rw [← hsize]
    omega
  · rw [classOf, if_neg (not_le.mpr hn), ← hsize]

theorem classOf_small {n : Nat} (hn : n ≤ smallMax) (hpos : 1 ≤ n) :
    classOf n < smallCount ∧ ∀ c < classOf n, classSize c < n := by
  have hmax : smallMax = 2048 := rfl
  have hsmall : smallCount = 128 := rfl
  have hcls : classOf n = (n - 1) / 16 := by rw [classOf, if_pos hn, if_neg (by omega), alignment]
  rw [hcls]
  refine ⟨by omega, fun c hc => ?_⟩
  rw [classSize_small (by omega)]
  omega

/-- A class below `CLASSES` is large enough for the request. -/
theorem le_classSize_classOf {n : Nat} (h : classOf n < classes) : n ≤ classSize (classOf n) := by
  have hmax : smallMax = 2048 := rfl
  by_cases hn : smallMax < n
  · obtain ⟨c, -, -, -, hcls⟩ := classOf_large hn
    split_ifs at hcls with hlt
    · omega
    · rw [hcls]
      exact not_lt.mp hlt
  · rcases Nat.eq_zero_or_pos n with rfl | hpos
    · exact Nat.zero_le _
    · obtain ⟨hc, -⟩ := classOf_small (not_lt.mp hn) hpos
      have hcls : classOf n = (n - 1) / 16 := by rw [classOf, if_pos (not_lt.mp hn), if_neg (by omega), alignment]
      rw [classSize_small hc, hcls]
      omega

theorem classOf_eq_classes {n : Nat} (hn : 2 ^ 31 < n) : classOf n = classes := by
  have hmax : smallMax = 2048 := rfl
  obtain ⟨c, hc, -, -, hcls⟩ := classOf_large (show smallMax < n by omega)
  rw [hcls, if_pos ((classSize_le hc).trans_lt hn)]

theorem classOf_lt {n : Nat} (hn : n ≤ 2 ^ 31) : classOf n < classes := by
  have hclasses : classes = 148 := rfl
  have hsmall : smallCount = 128 := rfl
  have htop : classSize (classes - 1) = 2 ^ 31 := by decide
  rcases Nat.eq_zero_or_pos n with rfl | hpos
  · decide
  · by_cases hlarge : smallMax < n
    · obtain ⟨c, hc, -, hfits, hcls⟩ := classOf_large hlarge
      have hle : n ≤ classSize c := by
        rcases hfits with hfits | rfl
        · exact hfits
        · rwa [htop]
      rwa [hcls, if_neg (not_lt.mpr hle)]
    · have := (classOf_small (not_lt.mp hlarge) hpos).1
      omega

/-- Every smaller class is too small. -/
theorem classSize_lt_of_lt_classOf {n c : Nat} (hn : n ≤ 2 ^ 31) (hpos : 1 ≤ n) (hc : c < classOf n) :
    classSize c < n := by
  by_cases hlarge : smallMax < n
  · obtain ⟨c', -, hlow, -, hcls⟩ := classOf_large hlarge
    have hlt := classOf_lt hn
    have heq : classOf n = c' := by
      split_ifs at hcls with h
      · omega
      · exact hcls
    exact (classSize_strictMono.monotone (by omega)).trans_lt hlow
  · exact (classOf_small (not_lt.mp hlarge) hpos).2 c hc

/-- Size classes are tight: a request gets the first class that is large enough, and no class when it is above the
largest. -/
theorem classOf_tight (n : Nat) :
    (n ≤ 2 ^ 31 → classOf n < classes ∧ n ≤ classSize (classOf n) ∧ (1 ≤ n → ∀ c < classOf n, classSize c < n)) ∧
      (2 ^ 31 < n → classOf n = classes) ∧
      (∀ c c', c < c' → c' < classes → classSize c < classSize c') ∧ ∀ c < classes, 16 ∣ classSize c :=
  ⟨fun hn => ⟨classOf_lt hn, le_classSize_classOf (classOf_lt hn), fun hpos _ => classSize_lt_of_lt_classOf hn hpos⟩,
    classOf_eq_classes, fun _ _ h _ => classSize_strictMono h, fun c _ => sixteen_dvd_classSize c⟩

/-! ### Rounding an address up -/

theorem and_complement_two_pow {x k : Nat} (hx : x < 2 ^ 64) (hk : k ≤ 64) :
    x &&& (2 ^ 64 - 1 - (2 ^ k - 1)) = x / 2 ^ k * 2 ^ k := by
  apply Nat.eq_of_testBit_eq
  intro i
  have hle : 2 ^ k ≤ 2 ^ 64 := Nat.pow_le_pow_right (by decide) hk
  have hmask : 2 ^ 64 - 1 - (2 ^ k - 1) = (2 ^ (64 - k) - 1) * 2 ^ k := by
    rw [Nat.sub_mul, ← pow_add, Nat.sub_add_cancel hk, Nat.one_mul]
    have := Nat.two_pow_pos k
    omega
  rw [Nat.testBit_and, hmask, Nat.testBit_mul_two_pow, Nat.testBit_mul_two_pow,
    Nat.testBit_two_pow_sub_one, Nat.testBit_div_two_pow]
  by_cases hik : k ≤ i
  · rw [Nat.sub_add_cancel hik]
    by_cases hi : i < 64
    · simp [hik, show i - k < 64 - k by omega]
    · have hfalse : x.testBit i = false :=
        Nat.testBit_lt_two_pow (hx.trans_le (Nat.pow_le_pow_right (by decide) (by omega)))
      simp [hfalse]
  · simp [hik]

/-- Rounding up gives a multiple of the alignment less than one alignment above the base. -/
theorem alignUp_spec {base k : Nat} (hk : k ≤ 64) (h : base + 2 ^ k - 1 < 2 ^ 64) :
    2 ^ k ∣ alignUp base (2 ^ k) ∧ base ≤ alignUp base (2 ^ k) ∧
      alignUp base (2 ^ k) < base + 2 ^ k := by
  have hpos : 0 < 2 ^ k := Nat.two_pow_pos k
  rw [alignUp, Nat.mod_eq_of_lt h, and_complement_two_pow h hk]
  refine ⟨Dvd.intro_left _ rfl, ?_, ?_⟩
  · have hdiv := Nat.div_add_mod (base + 2 ^ k - 1) (2 ^ k)
    have hmod := Nat.mod_lt (base + 2 ^ k - 1) hpos
    rw [Nat.mul_comm] at hdiv
    omega
  · have := Nat.div_mul_le_self (base + 2 ^ k - 1) (2 ^ k)
    omega

end Beeros.Malloc
