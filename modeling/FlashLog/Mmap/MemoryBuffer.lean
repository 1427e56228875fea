import FlashLog.Support.Bytes

/-!
`MemoryBuffer`: a byte buffer in a `std::string`. `Push` copies behind the string's
logical end and lengthens the string afterwards.
-/

set_option autoImplicit false
set_option relaxedAutoImplicit false

namespace FlashLog.Mmap

open FlashLog.Support

/-- What an implementation of `std::string` is free to choose: the capacity of an empty
string (the characters kept in the object itself), how far `reserve` rounds up, and what
uninitialised memory holds. -/
structure StringImpl where
  initialCapacity : Nat
  two_le_initialCapacity : 2 ≤ initialCapacity
  grow : Nat → Nat → Nat
  le_grow : ∀ capacity requested, requested ≤ grow capacity requested
  uninitialised : Nat → UInt8

/-- Fifteen characters in the object, at least doubling on growth. -/
def StringImpl.libstdcxx : StringImpl where
  initialCapacity := 15
  two_le_initialCapacity := by decide
  grow := fun capacity requested => max requested (2 * capacity)
  le_grow := fun _ _ => Nat.le_max_left _ _
  uninitialised := fun _ => 0

/-- A `std::string`: the allocated characters, the first `size` of them logical. The
terminating zero is left out. -/
structure StdString where
  mem : Bytes
  size : Nat
  size_le : size ≤ mem.length
  two_le_capacity : 2 ≤ mem.length

namespace StdString

variable (impl : StringImpl)

def capacity (s : StdString) : Nat := s.mem.length

def contents (s : StdString) : Bytes := s.mem.take s.size

def empty : StdString where
  mem := (List.range impl.initialCapacity).map impl.uninitialised
  size := 0
  size_le := Nat.zero_le _
  two_le_capacity := by
    rw [List.length_map, List.length_range]
    exact impl.two_le_initialCapacity

/-- Move the logical characters to a new allocation of `n` characters. -/
def reallocate (s : StdString) (n : Nat) (h : s.capacity ≤ n) : StdString where
  mem := s.contents ++ (List.range (n - s.size)).map impl.uninitialised
  size := s.size
  size_le := by
    have hle := s.size_le
    rw [List.length_append, contents, List.length_take]
    omega
  two_le_capacity := by
    have hle := s.size_le
    have htwo := s.two_le_capacity
    have hcapacity : s.mem.length ≤ n := h
    rw [List.length_append, contents, List.length_take, List.length_map, List.length_range]
    omega

def reserve (s : StdString) (n : Nat) : StdString :=
  if h : n ≤ s.capacity then s
  else s.reallocate impl (impl.grow s.capacity n)
    (Nat.le_trans (Nat.le_of_not_le h) (impl.le_grow _ _))

def poke (s : StdString) (off : Nat) (bs : Bytes) (h : off + bs.length ≤ s.capacity) :
    StdString where
  mem := Bytes.store s.mem off bs
  size := s.size
  size_le := by
    rw [Bytes.length_store h]
    exact s.size_le
  two_le_capacity := by
    rw [Bytes.length_store h]
    exact s.two_le_capacity

theorem capacity_reallocate (s : StdString) (n : Nat) (h : s.capacity ≤ n) :
    (s.reallocate impl n h).capacity = n := by
  have hle := s.size_le
  have hcapacity : s.mem.length ≤ n := h
  show (s.contents ++ (List.range (n - s.size)).map impl.uninitialised).length = n
  rw [List.length_append, contents, List.length_take, List.length_map, List.length_range]
  omega

theorem contents_reallocate (s : StdString) (n : Nat) (h : s.capacity ≤ n) :
    (s.reallocate impl n h).contents = s.contents := by
  have hle := s.size_le
  show (s.contents ++ _).take s.size = s.contents
  refine List.take_left' ?_
  rw [contents, List.length_take]
  omega

theorem le_capacity_reserve (s : StdString) (n : Nat) : n ≤ (s.reserve impl n).capacity := by
  rw [reserve]
  split
  · assumption
  · rw [capacity_reallocate]
    exact impl.le_grow _ _

@[simp] theorem size_reserve (s : StdString) (n : Nat) : (s.reserve impl n).size = s.size := by
  rw [reserve]
  split <;> rfl

@[simp] theorem contents_reserve (s : StdString) (n : Nat) :
    (s.reserve impl n).contents = s.contents := by
  rw [reserve]
  split
  · rfl
  · exact contents_reallocate impl s _ _

def resize (s : StdString) (n : Nat) : StdString :=
  if h : n ≤ s.size then
    { s with size := n, size_le := Nat.le_trans h s.size_le }
  else
    { (s.reserve impl n).poke s.size (List.replicate (n - s.size) 0) (by
        have hn := le_capacity_reserve impl s n
        rw [List.length_replicate]
        omega) with
      size := n
      size_le := by
        have hn := le_capacity_reserve impl s n
        have hlen : s.size + (List.replicate (n - s.size) (0 : UInt8)).length ≤
            (s.reserve impl n).mem.length := by
          rw [List.length_replicate]
          exact Nat.le_trans (by omega) hn
        show n ≤ (Bytes.store _ _ _).length
        rw [Bytes.length_store hlen]
        exact hn }

theorem length_contents (s : StdString) : s.contents.length = s.size := by
  rw [contents, List.length_take, Nat.min_eq_left s.size_le]

theorem contents_resize_of_le (s : StdString) {n : Nat} (h : n ≤ s.size) :
    (s.resize impl n).contents = s.contents.take n := by
  rw [resize, dif_pos h, contents, contents, List.take_take, Nat.min_eq_left h]

theorem size_resize (s : StdString) (n : Nat) : (s.resize impl n).size = n := by
  rw [resize]
  split <;> rfl

theorem contents_resize_of_lt (s : StdString) {n : Nat} (h : s.size < n) :
    (s.resize impl n).contents = s.contents ++ List.replicate (n - s.size) 0 := by
  have hroom := le_capacity_reserve impl s n
  have hfits : s.size + (List.replicate (n - s.size) (0 : UInt8)).length ≤
      (s.reserve impl n).mem.length := by
    rw [List.length_replicate]
    exact Nat.le_trans (by omega) hroom
  rw [resize, dif_neg (by omega)]
  show (Bytes.store (s.reserve impl n).mem s.size _).take n = _
  have hprefix : (s.reserve impl n).mem.take s.size = s.contents := by
    rw [← contents_reserve impl s n, contents, size_reserve]
  rw [Bytes.store, hprefix]
  refine List.take_left' ?_
  rw [List.length_append, length_contents, List.length_replicate]
  omega

theorem contents_resize_of_ge (s : StdString) {n : Nat} (h : s.size ≤ n) :
    (s.resize impl n).contents = s.contents ++ List.replicate (n - s.size) 0 := by
  rcases Nat.lt_or_eq_of_le h with hlt | heq
  · exact contents_resize_of_lt impl s hlt
  · subst heq
    have hall : s.contents.take s.size = s.contents :=
      List.take_of_length_le (Nat.le_of_eq s.length_contents)
    rw [contents_resize_of_le impl s (Nat.le_refl _), hall, Nat.sub_self, List.replicate_zero,
      List.append_nil]

theorem contents_poke (s : StdString) (bs : Bytes) (h : s.size + bs.length ≤ s.capacity) :
    (s.poke s.size bs h).contents = s.contents := by
  have hle := s.size_le
  show (Bytes.store s.mem s.size bs).take s.size = s.mem.take s.size
  have hlen : (s.mem.take s.size).length = s.size := by
    rw [List.length_take]
    omega
  rw [Bytes.store, List.append_assoc]
  exact List.take_left' hlen

end StdString

structure MemoryBuffer where
  data : StdString

namespace MemoryBuffer

variable (impl : StringImpl)

def new : MemoryBuffer := ⟨.empty impl⟩

def size (b : MemoryBuffer) : Nat := b.data.size

def capacity (b : MemoryBuffer) : Nat := b.data.capacity

def reserve (b : MemoryBuffer) (capacity : Nat) : MemoryBuffer := ⟨b.data.reserve impl capacity⟩

def clear (b : MemoryBuffer) : MemoryBuffer := ⟨b.data.resize impl 0⟩

def contents (b : MemoryBuffer) : Bytes := b.data.contents

/-- `Reserve_`: reserve one and a half times the capacity until it exceeds `size`. -/
def reserve_ (b : MemoryBuffer) (size : Nat) : MemoryBuffer :=
  if b.capacity ≤ size then reserve_ (b.reserve impl (b.capacity * 3 / 2)) size else b
termination_by size + 1 - b.capacity
decreasing_by
  have htwo : 2 ≤ b.capacity := b.data.two_le_capacity
  have hgrown : b.capacity * 3 / 2 ≤ (b.reserve impl (b.capacity * 3 / 2)).capacity :=
    StdString.le_capacity_reserve impl b.data _
  omega

def ensureCapacity (b : MemoryBuffer) (newSize : Nat) : MemoryBuffer :=
  if newSize ≤ b.capacity then b else reserve_ impl b newSize

theorem lt_capacity_reserve_ (b : MemoryBuffer) (size : Nat) :
    size < (reserve_ impl b size).capacity := by
  fun_induction reserve_ impl b size with
  | case1 b h ih => exact ih
  | case2 b h => omega

theorem contents_reserve_ (b : MemoryBuffer) (size : Nat) :
    (reserve_ impl b size).contents = b.contents ∧ (reserve_ impl b size).size = b.size := by
  fun_induction reserve_ impl b size with
  | case1 b h ih =>
    rw [ih.1, ih.2]
    exact ⟨StdString.contents_reserve impl b.data _, StdString.size_reserve impl b.data _⟩
  | case2 b h => exact ⟨rfl, rfl⟩

theorem le_capacity_ensureCapacity (b : MemoryBuffer) (newSize : Nat) :
    newSize ≤ (b.ensureCapacity impl newSize).capacity := by
  rw [ensureCapacity]
  split
  · assumption
  · exact Nat.le_of_lt (lt_capacity_reserve_ impl b newSize)

theorem contents_ensureCapacity (b : MemoryBuffer) (newSize : Nat) :
    (b.ensureCapacity impl newSize).contents = b.contents ∧
      (b.ensureCapacity impl newSize).size = b.size := by
  rw [ensureCapacity]
  split
  · exact ⟨rfl, rfl⟩
  · exact contents_reserve_ impl b newSize

def push (b : MemoryBuffer) (bs : Bytes) : MemoryBuffer :=
  let newSize := b.size + bs.length
  let grown := b.ensureCapacity impl newSize
  have room : grown.data.size + bs.length ≤ grown.data.capacity := by
    have hroom := le_capacity_ensureCapacity impl b newSize
    have hsize : grown.data.size = b.size := (contents_ensureCapacity impl b newSize).2
    rw [hsize]
    exact hroom
  ⟨(grown.data.poke grown.data.size bs room).resize impl newSize⟩

/-- The bytes of a push do not survive its last step: `resize` appends zeros over them. -/
theorem contents_push (b : MemoryBuffer) (bs : Bytes) :
    (b.push impl bs).contents = b.contents ++ List.replicate bs.length 0 := by
  obtain ⟨hcontents, hsize⟩ := contents_ensureCapacity impl b (b.size + bs.length)
  have hroom : (b.ensureCapacity impl (b.size + bs.length)).data.size + bs.length ≤
      (b.ensureCapacity impl (b.size + bs.length)).data.capacity := by
    have hle := le_capacity_ensureCapacity impl b (b.size + bs.length)
    have hdata : (b.ensureCapacity impl (b.size + bs.length)).data.size = b.size := hsize
    rw [hdata]
    exact hle
  have hpoke := StdString.contents_poke _ bs hroom
  have hpokeSize : ((b.ensureCapacity impl (b.size + bs.length)).data.poke
      (b.ensureCapacity impl (b.size + bs.length)).data.size bs hroom).size = b.size := hsize
  show StdString.contents (StdString.resize impl _ _) = _
  rw [StdString.contents_resize_of_ge impl _ (by rw [hpokeSize]; exact Nat.le_add_right _ _), hpoke,
    hpokeSize, Nat.add_sub_cancel_left]
  exact congrArg (· ++ List.replicate bs.length 0) hcontents

theorem size_push (b : MemoryBuffer) (bs : Bytes) :
    (b.push impl bs).size = b.size + bs.length :=
  StdString.size_resize impl _ _

theorem contents_clear (b : MemoryBuffer) : (b.clear impl).contents = [] := by
  show StdString.contents (b.data.resize impl 0) = []
  rw [StdString.contents_resize_of_le impl _ (Nat.zero_le _), List.take_zero]

section Refinement

inductive Op
  | push (bs : Bytes)
  | reserve (capacity : Nat)
  | clear

def apply (b : MemoryBuffer) : Op → MemoryBuffer
  | .push bs => b.push impl bs
  | .reserve capacity => b.reserve impl capacity
  | .clear => b.clear impl

def append (bytes : Bytes) : Op → Bytes
  | .push bs => bytes ++ bs
  | .reserve _ => bytes
  | .clear => []

/-- The bytes pushed since the last `Clear`, in order. -/
def pushedBytes (ops : List Op) : Bytes := ops.foldl append []

def Holds (b : MemoryBuffer) (bytes : Bytes) : Prop :=
  b.size = bytes.length ∧ b.contents = bytes

private theorem holds_apply {b : MemoryBuffer} {bytes : Bytes}
    (h : b.Holds (List.replicate bytes.length 0)) (op : Op) :
    (b.apply impl op).Holds (List.replicate (append bytes op).length 0) := by
  cases op with
  | push bs =>
    constructor
    · have hsize := h.1
      rw [apply, size_push, append, List.length_replicate, List.length_append]
      rw [List.length_replicate] at hsize
      omega
    · rw [apply, contents_push, h.2, append, List.length_append, List.replicate_append_replicate]
  | reserve capacity =>
    constructor
    · exact (StdString.size_reserve impl b.data capacity).trans h.1
    · exact (StdString.contents_reserve impl b.data capacity).trans h.2
  | clear =>
    constructor
    · exact StdString.size_resize impl b.data 0
    · exact contents_clear impl b

theorem holds_zeros (ops : List Op) {b : MemoryBuffer} {bytes : Bytes}
    (h : b.Holds (List.replicate bytes.length 0)) :
    (ops.foldl (apply impl) b).Holds (List.replicate (ops.foldl append bytes).length 0) := by
  induction ops generalizing b bytes with
  | nil => exact h
  | cons op ops ih => exact ih (holds_apply impl h op)

/-- The buffer holds what was pushed since the last `Clear` if and only if all of it is
zero bytes. -/
theorem holds_pushedBytes_iff (ops : List Op) :
    (ops.foldl (apply impl) (new impl)).Holds (pushedBytes ops) ↔ ∀ x ∈ pushedBytes ops, x = 0 := by
  have start : (new impl).Holds (List.replicate ([] : Bytes).length 0) := ⟨rfl, rfl⟩
  have zeros := holds_zeros impl ops start
  constructor
  · intro holds x hx
    have heq : pushedBytes ops = List.replicate (pushedBytes ops).length 0 :=
      holds.2.symm.trans zeros.2
    rw [heq] at hx
    exact List.eq_of_mem_replicate hx
  · intro hzero
    have heq : pushedBytes ops = List.replicate (pushedBytes ops).length 0 :=
      List.eq_replicate_of_mem hzero
    rw [heq]
    exact zeros

end Refinement

/-- One pushed byte, and a zero in its place. -/
theorem push_loses_byte :
    pushedBytes [.push [65]] = [65] ∧
      ([.push [65]].foldl (apply .libstdcxx) (new .libstdcxx)).contents = [0] ∧
      ¬ ([.push [65]].foldl (apply .libstdcxx) (new .libstdcxx)).Holds
        (pushedBytes [.push [65]]) := by
  have hcontents : ([.push [65]].foldl (apply .libstdcxx) (new .libstdcxx)).contents = [0] :=
    contents_push .libstdcxx (new .libstdcxx) [65]
  refine ⟨rfl, hcontents, ?_⟩
  rintro ⟨-, holds⟩
  rw [hcontents] at holds
  exact absurd holds (by decide)

end MemoryBuffer

end FlashLog.Mmap
