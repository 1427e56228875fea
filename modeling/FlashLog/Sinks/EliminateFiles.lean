import Mathlib.Data.List.Sort
import FlashLog.Support.Budget
import FlashLog.Sinks.FileSink

/-!
`EliminateFiles_` keeps the newest log files until their sizes reach the configured capacity,
and removes the older ones. The capacity is a number of megabytes that is cast to bytes in 64 bits.
-/

set_option autoImplicit false
set_option relaxedAutoImplicit false

namespace FlashLog.Sinks

open FlashLog.Support

namespace Space

def b : Nat := 1

def mb : Nat := 1024 * 1024

/-- `space_cast` from the unit `capacity` to the unit `toCapacity`, on `size_t` counts: the ratio
of the units is reduced, the count multiplied by its numerator and divided by its denominator. -/
def spaceCast (capacity toCapacity : Nat) (count : UInt64) : UInt64 :=
  count * UInt64.ofNat (capacity / capacity.gcd toCapacity) /
    UInt64.ofNat (toCapacity / capacity.gcd toCapacity)

theorem toNat_spaceCast_mb (count : UInt64) :
    (spaceCast mb b count).toNat = count.toNat * mb % 2 ^ 64 := by
  have hnum : mb / mb.gcd b = mb := by decide
  have hden : b / mb.gcd b = 1 := by decide
  rw [spaceCast, hnum, hden, UInt64.toNat_div, UInt64.toNat_mul, UInt64.toNat_ofNat',
    UInt64.toNat_ofNat']
  rw [Nat.mod_eq_of_lt (by decide : mb < 2 ^ 64), Nat.mod_eq_of_lt (by decide : 1 < 2 ^ 64),
    Nat.div_one]

theorem toNat_spaceCast_of_lt {count : UInt64} (h : count.toNat * mb < 2 ^ 64) :
    (spaceCast mb b count).toNat = count.toNat * mb := by
  rw [toNat_spaceCast_mb, Nat.mod_eq_of_lt h]

end Space

structure DirectoryEntry where
  name : String
  size : UInt64
  writeTime : Int
  deriving DecidableEq

/-- `path::extension` of a file name: from the last dot on, unless that dot begins the name. -/
def extension (name : String) : String :=
  if name = ".." then ""
  else
    match name.toList.reverse.span (· ≠ '.') with
    | (ext, '.' :: _ :: _) => String.ofList ('.' :: ext.reverse)
    | _ => ""

namespace EffectiveSink

/-- An order that `std::sort` may leave the log files of a directory in. -/
structure NewestFirst (dir files : List DirectoryEntry) : Prop where
  perm : files.Perm (dir.filter fun file => extension file.name = kFileSuffix)
  sorted : files.Pairwise fun file older => older.writeTime ≤ file.writeTime

/-- No two log files of the directory were written at the same time. -/
def DistinctTimes (dir : List DirectoryEntry) : Prop :=
  (dir.filter fun file => extension file.name = kFileSuffix).Pairwise fun file other =>
    file.writeTime ≠ other.writeTime

instance (dir : List DirectoryEntry) : Decidable (DistinctTimes dir) :=
  inferInstanceAs (Decidable (List.Pairwise _ _))

/-- The loop of `EliminateFiles_` over the sorted files: those it leaves, and those it removes. -/
def eliminateFiles (totalSize : UInt64) (files : List DirectoryEntry) :
    List DirectoryEntry × List DirectoryEntry :=
  Budget.split (fun curTotalSize file => curTotalSize + file.size)
    (Space.spaceCast Space.mb Space.b totalSize) 0 files

def curTotalSize (files : List DirectoryEntry) : UInt64 :=
  files.foldl (fun curTotalSize file => curTotalSize + file.size) 0

def sizes (files : List DirectoryEntry) : Nat := (files.map fun file => file.size.toNat).sum

theorem sizes_append (files older : List DirectoryEntry) :
    sizes (files ++ older) = sizes files + sizes older := by
  simp [sizes]

theorem toNat_curTotalSize (files : List DirectoryEntry) :
    (curTotalSize files).toNat = sizes files % 2 ^ 64 := by
  have general : ∀ cur : UInt64,
      (files.foldl (fun curTotalSize file => curTotalSize + file.size) cur).toNat =
        (cur.toNat + sizes files) % 2 ^ 64 := by
    induction files with
    | nil =>
      intro cur
      exact (Nat.mod_eq_of_lt cur.toNat_lt).symm
    | cons file files ih =>
      intro cur
      rw [List.foldl_cons, ih, UInt64.toNat_add, Nat.mod_add_mod, sizes, sizes, List.map_cons,
        List.sum_cons, Nat.add_assoc]
  rw [curTotalSize, general]
  simp

section Order

variable {dir files files' : List DirectoryEntry}

theorem NewestFirst.strict (order : NewestFirst dir files) (distinct : DistinctTimes dir) :
    files.Pairwise fun file older => older.writeTime < file.writeTime := by
  have apart : files.Pairwise fun file other => file.writeTime ≠ other.writeTime :=
    order.perm.symm.pairwise distinct fun h => h.symm
  refine (order.sorted.and apart).imp ?_
  rintro file older ⟨hle, hne⟩
  exact lt_of_le_of_ne hle (Ne.symm hne)

theorem NewestFirst.nodup (order : NewestFirst dir files) (distinct : DistinctTimes dir) :
    files.Nodup := by
  refine (order.strict distinct).imp ?_
  rintro file older hlt rfl
  exact absurd hlt (lt_irrefl _)

theorem NewestFirst.unique (order : NewestFirst dir files) (order' : NewestFirst dir files')
    (distinct : DistinctTimes dir) : files = files' := by
  refine List.Perm.eq_of_pairwise ?_ (order.strict distinct) (order'.strict distinct)
    (order.perm.trans order'.perm.symm)
  intro file other _ _ hlt hgt
  exact absurd hlt (lt_asymm hgt)

end Order

/-- What the configured capacity promises of the files that are left and those removed. -/
structure Honoured (totalSize : Nat) (files left removed : List DirectoryEntry) : Prop where
  newest : left <+: files
  older : ∀ file ∈ left, ∀ gone ∈ removed, gone.writeTime < file.writeTime
  fits : sizes files ≤ totalSize → removed = []
  capped : sizes left ≤ totalSize

/-- Some newest files reach the capacity exactly, where there is more than the capacity; where
there is not, no newest files reach it before the last file. -/
def MeetsExactly (totalSize : Nat) (files : List DirectoryEntry) : Prop :=
  if sizes files ≤ totalSize then
    ∀ newer file older, files = newer ++ file :: older → sizes newer < totalSize
  else ∃ newer older, files = newer ++ older ∧ sizes newer = totalSize

section Capacity

variable {totalSize : UInt64} {files : List DirectoryEntry}

theorem left_append_removed (totalSize : UInt64) (files : List DirectoryEntry) :
    (eliminateFiles totalSize files).1 ++ (eliminateFiles totalSize files).2 = files :=
  Budget.split_append _ _ _ _

theorem curTotalSize_lt_iff (noOverflow : totalSize.toNat * Space.mb < 2 ^ 64)
    {newer : List DirectoryEntry} (fits : sizes newer < 2 ^ 64) :
    curTotalSize newer < Space.spaceCast Space.mb Space.b totalSize ↔
      sizes newer < totalSize.toNat * Space.mb := by
  rw [UInt64.lt_iff_toNat_lt, Space.toNat_spaceCast_of_lt noOverflow, toNat_curTotalSize,
    Nat.mod_eq_of_lt fits]

theorem sizes_lt_of_left (noOverflow : totalSize.toNat * Space.mb < 2 ^ 64)
    {newer older : List DirectoryEntry} {file : DirectoryEntry} (fits : sizes newer < 2 ^ 64)
    (h : (eliminateFiles totalSize files).1 = newer ++ file :: older) :
    sizes newer < totalSize.toNat * Space.mb :=
  (curTotalSize_lt_iff noOverflow fits).mp (Budget.below_of_kept h)

theorem sizes_ge_of_removed (noOverflow : totalSize.toNat * Space.mb < 2 ^ 64)
    (fits : sizes (eliminateFiles totalSize files).1 < 2 ^ 64)
    (h : (eliminateFiles totalSize files).2 ≠ []) :
    totalSize.toNat * Space.mb ≤ sizes (eliminateFiles totalSize files).1 := by
  refine Nat.le_of_not_lt fun below => Budget.reached_of_dropped h ?_
  exact (curTotalSize_lt_iff noOverflow fits).mpr below

variable {dir : List DirectoryEntry}

theorem removed_nil_iff (noOverflow : totalSize.toNat * Space.mb < 2 ^ 64)
    (under : sizes files ≤ totalSize.toNat * Space.mb) :
    (eliminateFiles totalSize files).2 = [] ↔
      ∀ newer file older, files = newer ++ file :: older →
        sizes newer < totalSize.toNat * Space.mb := by
  have whole := left_append_removed totalSize files
  constructor
  · intro none newer file older hfiles
    have fits : sizes newer < 2 ^ 64 := by
      rw [hfiles, sizes_append] at under
      omega
    rw [none, List.append_nil] at whole
    exact sizes_lt_of_left noOverflow fits (whole.trans hfiles)
  · intro below
    by_contra some
    obtain ⟨file, older, hremoved⟩ := List.exists_cons_of_ne_nil some
    rw [hremoved] at whole
    have hlt := below _ file older whole.symm
    have hge := sizes_ge_of_removed noOverflow (by omega) some
    omega

theorem capped_iff (noOverflow : totalSize.toNat * Space.mb < 2 ^ 64)
    (above : totalSize.toNat * Space.mb < sizes files) :
    sizes (eliminateFiles totalSize files).1 ≤ totalSize.toNat * Space.mb ↔
      ∃ newer older, files = newer ++ older ∧ sizes newer = totalSize.toNat * Space.mb := by
  have whole := left_append_removed totalSize files
  constructor
  · intro capped
    have some : (eliminateFiles totalSize files).2 ≠ [] := by
      intro none
      rw [none, List.append_nil] at whole
      rw [whole] at capped
      omega
    refine ⟨_, _, whole.symm, Nat.le_antisymm capped ?_⟩
    exact sizes_ge_of_removed noOverflow (by omega) some
  · rintro ⟨newer, older, hfiles, hexact⟩
    rcases List.append_eq_append_iff.mp (whole.trans hfiles) with
      ⟨rest, hnewer, -⟩ | ⟨rest, hleft, -⟩
    · rw [hnewer, sizes_append] at hexact
      omega
    · cases rest with
      | nil =>
        rw [hleft, List.append_nil, hexact]
      | cons file rest =>
        -- a file is left although those before it have reached the capacity
        have hlt := sizes_lt_of_left noOverflow (by omega) hleft
        omega

/-- The capacity is honoured exactly if the sizes meet it exactly. -/
theorem eliminateFiles_honoured_iff (order : NewestFirst dir files) (distinct : DistinctTimes dir)
    (noOverflow : totalSize.toNat * Space.mb < 2 ^ 64) :
    Honoured (totalSize.toNat * Space.mb) files (eliminateFiles totalSize files).1
        (eliminateFiles totalSize files).2 ↔ MeetsExactly (totalSize.toNat * Space.mb) files := by
  have whole := left_append_removed totalSize files
  rw [MeetsExactly]
  split
  · rename_i under
    rw [← removed_nil_iff noOverflow under]
    constructor
    · intro honoured
      exact honoured.fits under
    · intro none
      rw [none, List.append_nil] at whole
      refine ⟨?_, ?_, fun _ => none, ?_⟩
      · rw [whole]
      · rw [none]
        exact fun _ _ _ hgone => absurd hgone List.not_mem_nil
      · rw [whole]
        exact under
  · rename_i above
    rw [← capped_iff noOverflow (by omega)]
    constructor
    · exact Honoured.capped
    · intro capped
      have strict := order.strict distinct
      rw [← whole, List.pairwise_append] at strict
      exact ⟨⟨_, whole⟩, strict.2.2, fun under => absurd under above, capped⟩

/-- Two files of 800000 bytes are both left under a capacity of one megabyte. -/
theorem eliminateFiles_exceeds :
    let dir : List DirectoryEntry :=
      [⟨"app_20250101000001.log", 800000, 1⟩, ⟨"app_20250101000000.log", 800000, 0⟩]
    NewestFirst dir dir ∧ DistinctTimes dir ∧ (1 : UInt64).toNat * Space.mb < 2 ^ 64 ∧
      (eliminateFiles 1 dir).1 = dir ∧
      ¬ Honoured ((1 : UInt64).toNat * Space.mb) dir (eliminateFiles 1 dir).1
        (eliminateFiles 1 dir).2 := by
  refine ⟨⟨by decide, by decide⟩, by decide, by decide, by decide, ?_⟩
  intro honoured
  exact absurd honoured.capped (by decide)

theorem eliminateFiles_honoured_iff_exact :
    let dir : List DirectoryEntry :=
      [⟨"app_20250101000000.log", 5, 0⟩, ⟨"app_20250101000001.log", 1048576, 1⟩]
    Honoured ((1 : UInt64).toNat * Space.mb) dir.reverse (eliminateFiles 1 dir.reverse).1
      (eliminateFiles 1 dir.reverse).2 := by
  intro dir
  have order : NewestFirst dir dir.reverse := ⟨by decide, by decide⟩
  refine (eliminateFiles_honoured_iff order (by decide) (by decide)).mpr ?_
  rw [MeetsExactly, if_neg (by decide)]
  exact ⟨[⟨"app_20250101000001.log", 1048576, 1⟩], [⟨"app_20250101000000.log", 5, 0⟩], by decide,
    by decide⟩

end Capacity

section Growth

variable {dir files files' : List DirectoryEntry} {a b : UInt64}

theorem spaceCast_le (h : a ≤ b) (noOverflow : b.toNat * Space.mb < 2 ^ 64) :
    Space.spaceCast Space.mb Space.b a ≤ Space.spaceCast Space.mb Space.b b := by
  have hle : a.toNat * Space.mb ≤ b.toNat * Space.mb :=
    Nat.mul_le_mul_right _ (UInt64.le_iff_toNat_le.mp h)
  rw [UInt64.le_iff_toNat_le, Space.toNat_spaceCast_of_lt noOverflow,
    Space.toNat_spaceCast_of_lt (lt_of_le_of_lt hle noOverflow)]
  exact hle

/-- No file has newer files whose sizes reach the bytes of `b` while none of them reach those
of `a`. -/
def ReachedTogether (a b : UInt64) (files : List DirectoryEntry) : Prop :=
  ∀ newer file older, files = newer ++ file :: older →
    (∀ front, front <+: newer → curTotalSize front < Space.spaceCast Space.mb Space.b a) →
      curTotalSize newer < Space.spaceCast Space.mb Space.b b

theorem left_subset_iff (nodup : files.Nodup) :
    (∀ file ∈ (eliminateFiles a files).1, file ∈ (eliminateFiles b files).1) ↔
      ReachedTogether a b files := by
  constructor
  · intro subset newer file older hfiles below
    have left := subset file ((Budget.mem_kept_iff nodup hfiles).mpr below)
    exact (Budget.mem_kept_iff nodup hfiles).mp left newer (List.prefix_refl newer)
  · intro together file hfile
    have whole := left_append_removed a files
    have member : file ∈ files := by
      rw [← whole]
      exact List.mem_append_left _ hfile
    obtain ⟨newer, older, hfiles⟩ := List.append_of_mem member
    have below := (Budget.mem_kept_iff nodup hfiles).mp hfile
    refine (Budget.mem_kept_iff nodup hfiles).mpr ?_
    intro front hfront
    have belowFront : ∀ part, part <+: front →
        curTotalSize part < Space.spaceCast Space.mb Space.b a :=
      fun part hpart => below part (hpart.trans hfront)
    -- the file behind `front` is the next of the newer ones, or the file itself
    obtain ⟨rest, rfl⟩ := hfront
    cases rest with
    | nil => exact together front file older (by simpa using hfiles) belowFront
    | cons next rest =>
      exact together front next (rest ++ file :: older) (by simpa using hfiles) belowFront

/-- In no directory is a file left under `a` and removed under `b`. -/
def LeavesMore (a b : UInt64) : Prop :=
  ∀ dir files files', NewestFirst dir files → NewestFirst dir files' → DistinctTimes dir →
    ∀ file ∈ (eliminateFiles a files).1, file ∈ (eliminateFiles b files').1

def newAndOld (size : UInt64) : List DirectoryEntry :=
  [⟨"app_20250101000001.log", size, 1⟩, ⟨"app_20250101000000.log", 0, 0⟩]

theorem newAndOld_logs (size : UInt64) :
    (newAndOld size).filter (fun file => extension file.name = kFileSuffix) = newAndOld size := by
  have new : extension "app_20250101000001.log" = kFileSuffix := by decide
  have old : extension "app_20250101000000.log" = kFileSuffix := by decide
  simp [newAndOld, new, old]

theorem newAndOld_order (size : UInt64) : NewestFirst (newAndOld size) (newAndOld size) :=
  ⟨by rw [newAndOld_logs], by simp [newAndOld]⟩

theorem newAndOld_distinct (size : UInt64) : DistinctTimes (newAndOld size) := by
  rw [DistinctTimes, newAndOld_logs]
  simp [newAndOld]

theorem leavesMore_iff :
    LeavesMore a b ↔ Space.spaceCast Space.mb Space.b a ≤ Space.spaceCast Space.mb Space.b b := by
  constructor
  · intro more
    by_contra larger
    rw [UInt64.not_le] at larger
    let size := Space.spaceCast Space.mb Space.b b
    have order := newAndOld_order size
    have distinct := newAndOld_distinct size
    have together := (left_subset_iff (order.nodup distinct)).mp
      (more _ _ _ order order distinct)
    refine absurd (together [⟨"app_20250101000001.log", size, 1⟩] _ [] rfl ?_) ?_
    · intro front hfront
      rcases List.prefix_cons_iff.mp hfront with rfl | ⟨rest, rfl, hrest⟩
      · exact UInt64.lt_of_le_of_lt (UInt64.le_iff_toNat_le.mpr (Nat.zero_le _)) larger
      · obtain rfl := List.prefix_nil.mp hrest
        simpa [curTotalSize] using larger
    · simp [curTotalSize, size]
  · intro hle dir files files' order order' distinct
    obtain rfl := order.unique order' distinct
    refine (left_subset_iff (order.nodup distinct)).mpr ?_
    intro newer file older _ below
    exact UInt64.lt_of_lt_of_le (below newer (List.prefix_refl newer)) hle

/-- A capacity that is not larger leaves no more files in any directory exactly if its bytes in
`size_t` are not more. In one directory this is so exactly if the larger capacity fits `size_t` in
bytes, or its bytes modulo `2 ^ 64` are not reached before those of the smaller one. -/
theorem larger_leaves_more_iff (h : a ≤ b) :
    (LeavesMore a b ↔
      Space.spaceCast Space.mb Space.b a ≤ Space.spaceCast Space.mb Space.b b) ∧
    ∀ {dir files files'}, NewestFirst dir files → NewestFirst dir files' → DistinctTimes dir →
      ((∀ file ∈ (eliminateFiles a files).1, file ∈ (eliminateFiles b files').1) ↔
        b.toNat * Space.mb < 2 ^ 64 ∨ ReachedTogether a b files) := by
  refine ⟨leavesMore_iff, fun {dir files files'} order order' distinct => ?_⟩
  obtain rfl := order.unique order' distinct
  constructor
  · exact fun subset => Or.inr ((left_subset_iff (order.nodup distinct)).mp subset)
  · rintro (noOverflow | together)
    · exact leavesMore_iff.mpr (spaceCast_le h noOverflow) dir files files order order distinct
    · exact (left_subset_iff (order.nodup distinct)).mpr together

/-- `2 ^ 44` megabytes are no bytes in 64 bits: the capacity of one megabyte leaves the file, the
larger one removes it. -/
theorem larger_removes_more :
    let dir : List DirectoryEntry := [⟨"app_20250101000000.log", 1, 0⟩]
    NewestFirst dir dir ∧ DistinctTimes dir ∧ (1 : UInt64) ≤ 17592186044416 ∧
      (eliminateFiles 1 dir).1 = dir ∧ (eliminateFiles 17592186044416 dir).1 = [] ∧
      ¬ ∀ file ∈ (eliminateFiles 1 dir).1, file ∈ (eliminateFiles 17592186044416 dir).1 := by
  refine ⟨⟨by decide, by decide⟩, by decide, by decide, by decide, by decide, by decide⟩

theorem larger_leaves_more_iff_hundred :
    let dir : List DirectoryEntry :=
      [⟨"app_20250101000001.log", 2097152, 1⟩, ⟨"app_20250101000000.log", 5, 0⟩]
    LeavesMore 1 100 ∧
      ∀ file ∈ (eliminateFiles 1 dir).1, file ∈ (eliminateFiles 100 dir).1 := by
  intro dir
  have order : NewestFirst dir dir := ⟨by decide, by decide⟩
  obtain ⟨everywhere, here⟩ :=
    larger_leaves_more_iff (show (1 : UInt64) ≤ 100 by decide)
  exact ⟨everywhere.mpr (by decide), (here order order (by decide)).mpr (Or.inl (by decide))⟩

end Growth

end EffectiveSink

end FlashLog.Sinks
