import FlashLog.Sinks.WriteFailure

/-!
The log files of a sink whose input and output work. `GetFilePath_` stays with the last file or
chooses a name that no file has, so a chunk goes behind the chunks of the last file or into a
new one, and the files in creation order hold the chunks in order.
-/

set_option autoImplicit false
set_option relaxedAutoImplicit false

namespace FlashLog.Sinks

open FlashLog.Support

section Names

/-- What `fmt` makes of a time point under `{:%Y%m%d%H%M%S}` are digits. -/
def Dated (time : String) : Prop := ∀ c ∈ time.toList, c.isDigit = true

theorem toString_inj {m n : Nat} (h : (toString m).toList = (toString n).toList) : m = n := by
  have digits : Nat.toDigits 10 m = Nat.toDigits 10 n := by
    rw [← Nat.toList_repr, ← Nat.toList_repr]
    exact h
  rw [← Nat.ofDigitChars_ten_toDigits (n := m), digits, Nat.ofDigitChars_ten_toDigits]

theorem digits_split {a a' : List Char} {x x' : Char} {rest rest' : List Char}
    (ha : ∀ c ∈ a, c.isDigit = true) (ha' : ∀ c ∈ a', c.isDigit = true)
    (hx : x.isDigit = false) (hx' : x'.isDigit = false)
    (h : a ++ x :: rest = a' ++ x' :: rest') : a = a' ∧ x = x' ∧ rest = rest' := by
  induction a generalizing a' with
  | nil =>
    cases a' with
    | nil =>
      obtain ⟨rfl, rfl⟩ := List.cons.inj h
      exact ⟨rfl, rfl, rfl⟩
    | cons c a' =>
      obtain ⟨rfl, -⟩ := List.cons.inj h
      rw [ha' x List.mem_cons_self] at hx
      cases hx
  | cons c a ih =>
    cases a' with
    | nil =>
      obtain ⟨rfl, -⟩ := List.cons.inj h
      rw [ha c List.mem_cons_self] at hx'
      cases hx'
    | cons c' a' =>
      obtain ⟨rfl, htail⟩ := List.cons.inj h
      obtain ⟨rfl, hrest⟩ := ih (fun c hc => ha c (List.mem_cons_of_mem _ hc))
        (fun c hc => ha' c (List.mem_cons_of_mem _ hc)) htail
      exact ⟨rfl, hrest⟩

variable {conf : Conf} {names : List String} {time time' : String}

theorem dataTimePath_split (dated : Dated time) (dated' : Dated time') {x x' : Char}
    {rest rest' : List Char} (hx : x.isDigit = false) (hx' : x'.isDigit = false)
    (h : (getDataTimePath conf time).toList ++ x :: rest =
      (getDataTimePath conf time').toList ++ x' :: rest') :
    time = time' ∧ x = x' ∧ rest = rest' := by
  simp only [getDataTimePath, String.toList_append, List.append_assoc] at h
  obtain ⟨htime, hrest⟩ := digits_split dated dated' hx hx'
    (List.append_cancel_left (List.append_cancel_left h))
  exact ⟨String.toList_inj.mp htime, hrest⟩

theorem toList_plain (conf : Conf) (time : String) :
    (getDataTimePath conf time ++ kFileSuffix).toList =
      (getDataTimePath conf time).toList ++ '.' :: ['l', 'o', 'g'] := by
  rw [String.toList_append]
  rfl

theorem toList_numbered (conf : Conf) (time : String) (i : Nat) :
    (getDataTimePath conf time ++ "_" ++ toString i ++ kFileSuffix).toList =
      (getDataTimePath conf time).toList ++ '_' :: ((toString i).toList ++ kFileSuffix.toList) := by
  simp only [String.toList_append, List.append_assoc]
  rfl

def dateCount (conf : Conf) (time : String) (names : List String) : Nat :=
  names.countP fun other => decide ((getDataTimePath conf time).toList <:+: other.toList)

theorem countP_date (conf : Conf) (time : String) (dir : LogDir) :
    dir.countP (fun file => decide ((getDataTimePath conf time).toList <:+: file.1.toList)) =
      dateCount conf time (dir.map Prod.fst) := by
  rw [dateCount, List.countP_map]
  rfl

/-- The names of the log files: the date, and a number below the count of the names with that
date where there is one. -/
def LogNames (conf : Conf) (names : List String) : Prop :=
  ∀ name ∈ names, ∃ time, Dated time ∧
    (name = getDataTimePath conf time ++ kFileSuffix ∨
      ∃ i < dateCount conf time names,
        name = getDataTimePath conf time ++ "_" ++ toString i ++ kFileSuffix)

theorem numbered_fresh (h : LogNames conf names) (dated : Dated time) :
    getDataTimePath conf time ++ "_" ++ toString (dateCount conf time names) ++ kFileSuffix ∉
      names := by
  intro hmem
  obtain ⟨time', dated', hname | ⟨i, hi, hname⟩⟩ := h _ hmem
  · have hlist := congrArg String.toList hname
    rw [toList_numbered, toList_plain] at hlist
    have hsplit := dataTimePath_split dated dated' rfl rfl hlist
    exact absurd hsplit.2.1 (by decide)
  · have hlist := congrArg String.toList hname
    rw [toList_numbered, toList_numbered] at hlist
    obtain ⟨rfl, -, hrest⟩ := dataTimePath_split dated dated' rfl rfl hlist
    have same := toString_inj (List.append_cancel_right hrest)
    exact absurd same (Nat.ne_of_gt hi)

private theorem dateCount_le (conf : Conf) (time name : String) (names : List String) :
    dateCount conf time names ≤ dateCount conf time (names ++ [name]) := by
  rw [dateCount, dateCount, List.countP_append]
  exact Nat.le_add_right _ _

theorem LogNames.append (h : LogNames conf names) {name : String} (dated : Dated time)
    (hname : name = getDataTimePath conf time ++ kFileSuffix ∨
      name = getDataTimePath conf time ++ "_" ++ toString (dateCount conf time names) ++
        kFileSuffix) : LogNames conf (names ++ [name]) := by
  intro other hother
  rcases List.mem_append.mp hother with hold | hnew
  · obtain ⟨time', dated', hplain | ⟨i, hi, hnumbered⟩⟩ := h other hold
    · exact ⟨time', dated', Or.inl hplain⟩
    · have grown := dateCount_le conf time' name names
      exact ⟨time', dated', Or.inr ⟨i, by omega, hnumbered⟩⟩
  · obtain rfl := List.mem_singleton.mp hnew
    rcases hname with hplain | hnumbered
    · exact ⟨time, dated, Or.inl hplain⟩
    · refine ⟨time, dated, Or.inr ⟨_, ?_, hnumbered⟩⟩
      -- the new name contains the date
      have contains : (getDataTimePath conf time).toList <:+: other.toList := by
        rw [hnumbered, toList_numbered]
        exact (List.prefix_append _ _).isInfix
      have one : dateCount conf time [other] = 1 := by
        simp [dateCount, contains]
      rw [dateCount] at one
      rw [dateCount, dateCount, List.countP_append, one]
      exact Nat.lt_succ_self _

theorem suffixed_ne_empty (name : String) : name ++ kFileSuffix ≠ "" := by
  intro h
  have hlist := congrArg String.toList h
  rw [String.toList_append] at hlist
  cases (List.append_eq_nil_iff.mp hlist).2

/-- `GetFilePath_` keeps the path, or chooses a name that no file has. -/
theorem getFilePath_cases {dir : LogDir} {filePath : String}
    (h : LogNames conf (dir.map Prod.fst)) (hstart : filePath = "" → dir = [])
    (dated : Dated time) :
    filePath ≠ "" ∧ getFilePath conf "" time dir filePath = filePath ∨
      getFilePath conf "" time dir filePath ∉ dir.map Prod.fst ∧
        getFilePath conf "" time dir filePath ≠ "" ∧
        LogNames conf (dir.map Prod.fst ++ [getFilePath conf "" time dir filePath]) := by
  have hempty : getDataTimePath conf time ++ "" = getDataTimePath conf time := String.append_empty
  simp only [getFilePath, countP_date, hempty]
  split
  · rename_i hpath
    rw [hstart hpath] at h ⊢
    exact Or.inr ⟨List.not_mem_nil, suffixed_ne_empty _, h.append dated (Or.inl rfl)⟩
  · rename_i hpath
    split
    · right
      split
      · exact ⟨numbered_fresh h dated, suffixed_ne_empty _, h.append dated (Or.inr rfl)⟩
      · rename_i habsent
        refine ⟨?_, suffixed_ne_empty _, h.append dated (Or.inl rfl)⟩
        intro hmem
        obtain ⟨file, hfile, hname⟩ := List.mem_map.mp hmem
        exact habsent (List.lookup_isSome_iff.mpr ⟨file, hfile, by simp [hname]⟩)
    · exact Or.inl ⟨hpath, rfl⟩

end Names

namespace LogDir

theorem append_last {before : LogDir} {name : String} (fresh : name ∉ before.map Prod.fst)
    (old bs : Bytes) :
    LogDir.append (before ++ [(name, old)]) name bs = before ++ [(name, old ++ bs)] := by
  have others : before.map (fun file => if file.1 = name then (file.1, file.2 ++ bs) else file) =
      before := by
    refine (List.map_congr_left fun file hfile => ?_).trans (List.map_id before)
    rw [if_neg]
    · rfl
    · intro same
      exact fresh (List.mem_map.mpr ⟨file, hfile, same⟩)
  rw [LogDir.append, List.map_append, others]
  simp

theorem create_new {dir : LogDir} {name : String} (fresh : name ∉ dir.map Prod.fst) :
    dir.create name = dir ++ [(name, [])] := by
  rw [create, if_neg]
  intro there
  obtain ⟨file, hfile, same⟩ := List.lookup_isSome_iff.mp there
  exact fresh (List.mem_map.mpr ⟨file, hfile, (beq_iff_eq.mp same).symm⟩)

end LogDir

namespace FileSink

variable {σ : Type} {s : FileSink σ}

/-- The last log file is open under the sink's path and holds `content` once the stream is
closed; `before` are the other files. -/
structure Writing (s : FileSink σ) (before : LogDir) (content : Bytes) : Prop where
  named : s.filePath ≠ ""
  fresh : s.filePath ∉ before.map Prod.fst
  files : ∃ old buffer, s.dir = before ++ [(s.filePath, old)] ∧
    s.ofs = ⟨some ⟨s.filePath, buffer⟩, false⟩ ∧ old ++ buffer = content

/-- `files` are the log files once the stream is closed. -/
structure Tidy (conf : Conf) (s : FileSink σ) (files : LogDir) : Prop where
  names : LogNames conf (files.map Prod.fst)
  current : (s.filePath = "" ∧ s.ofs = ⟨none, false⟩ ∧ s.dir = [] ∧ files = []) ∨
    ∃ before content, s.Writing before content ∧ files = before ++ [(s.filePath, content)]

/-- The bytes go behind those of the last file, or into a new one. -/
inductive Extends (files : LogDir) (bs : Bytes) : LogDir → Prop
  | last (before : LogDir) (name : String) (content : Bytes) :
      files = before ++ [(name, content)] → Extends files bs (before ++ [(name, content ++ bs)])
  | new (name : String) : Extends files bs (files ++ [(name, bs)])

variable {before : LogDir} {content : Bytes}

theorem writeOut_working {file : OpenFile} (h : s.ofs = ⟨some file, false⟩) (bs : Bytes)
    {outcome : WriteOutcome} (working : outcome.taken = none) :
    s.writeOut bs outcome =
      { s with
        ofs := ⟨some ⟨file.name, (file.buffer ++ bs).drop outcome.handed⟩, false⟩
        dir := s.dir.append file.name ((file.buffer ++ bs).take outcome.handed) } := by
  simp [FileSink.writeOut, OfStream.write, h, working]

theorem Writing.writeOut (h : s.Writing before content) (bs : Bytes) {outcome : WriteOutcome}
    (working : outcome.taken = none) : (s.writeOut bs outcome).Writing before (content ++ bs) := by
  obtain ⟨old, buffer, hdir, hofs, rfl⟩ := h.files
  rw [writeOut_working hofs bs working, hdir, LogDir.append_last h.fresh]
  refine ⟨h.named, h.fresh, _, _, rfl, rfl, ?_⟩
  rw [List.append_assoc, List.take_append_drop, List.append_assoc]

theorem Writing.close (h : s.Writing before content) :
    (s.ofs.close s.dir).2 = before ++ [(s.filePath, content)] := by
  obtain ⟨old, buffer, hdir, hofs, rfl⟩ := h.files
  rw [hofs, hdir]
  exact LogDir.append_last h.fresh old buffer

theorem Writing.keep (h : s.Writing before content) (io : Io) :
    s.openLog io s.filePath = s := by
  obtain ⟨old, buffer, -, hofs, -⟩ := h.files
  exact openLog_keeps io ⟨by rw [hofs]; rfl, rfl⟩

theorem Writing.rotate (h : s.Writing before content) {io : Io} (opens : io.opens = true)
    {name : String} (named : name ≠ "")
    (fresh : name ∉ (before ++ [(s.filePath, content)]).map Prod.fst) :
    (s.openLog io name).Writing (before ++ [(s.filePath, content)]) [] := by
  have hclose := h.close
  obtain ⟨old, buffer, hdir, hofs, hcontent⟩ := h.files
  have hother : s.filePath ≠ name := by
    rintro rfl
    exact fresh (by simp)
  have hopen : s.openLog io name =
      { s with
        ofs := ⟨some ⟨name, []⟩, false⟩
        dir := before ++ [(s.filePath, content)] ++ [(name, [])]
        filePath := name } := by
    simp only [openLog, hofs, ne_eq, hother, not_false_eq_true, if_true]
    rw [hofs] at hclose
    simp only [OfStream.openFile, opens, if_true, hclose, LogDir.create_new fresh]
  rw [hopen]
  exact ⟨named, fresh, [], [], rfl, rfl, rfl⟩

theorem writing_first {io : Io} (opens : io.opens = true) (closed : s.ofs = ⟨none, false⟩)
    (empty : s.dir = []) {name : String} (named : name ≠ "") :
    (s.openLog io name).Writing [] [] := by
  have hopen : s.openLog io name =
      { s with ofs := ⟨some ⟨name, []⟩, false⟩, dir := [(name, [])], filePath := name } := by
    simp only [openLog, closed, OfStream.openFile, opens, if_true, empty]
    rfl
  rw [hopen]
  exact ⟨named, List.not_mem_nil, [], [], rfl, rfl, rfl⟩

variable {conf : Conf} {files : LogDir}

theorem Tidy.congr (h : Tidy conf s files) {s' : FileSink σ} (hpath : s'.filePath = s.filePath)
    (hofs : s'.ofs = s.ofs) (hdir : s'.dir = s.dir) : Tidy conf s' files := by
  refine ⟨h.names, ?_⟩
  rcases h.current with closed | ⟨before, content, writing, hfiles⟩
  · rw [hpath, hofs, hdir]
    exact Or.inl closed
  · refine Or.inr ⟨before, content, ⟨?_, ?_, ?_⟩, ?_⟩
    · rw [hpath]
      exact writing.named
    · rw [hpath]
      exact writing.fresh
    · rw [hpath, hofs, hdir]
      exact writing.files
    · rw [hpath]
      exact hfiles

theorem filePath_openLog (io : Io) (name : String) : (s.openLog io name).filePath = name := by
  rw [openLog]
  split
  · rfl
  · split <;> rfl

theorem Writing.putChunk {flag : String} (header : ChunkHeader) {io : Io} (hio : io.Working)
    (h : (s.openLog io (getFilePath conf flag io.time s.dir s.filePath)).Writing before content) :
    (s.putChunk conf flag header io).Writing before (content ++ (header.bytes ++ s.cache)) := by
  have written := (h.writeOut header.bytes hio.header).writeOut s.cache hio.payload
  rw [List.append_assoc] at written
  exact ⟨written.named, written.fresh, written.files⟩

theorem Tidy.putChunk (h : Tidy conf s files) (header : ChunkHeader) {io : Io}
    (hio : io.Working) (dated : Dated io.time) :
    ∃ files', Extends files (header.bytes ++ s.cache) files' ∧
      Tidy conf (s.putChunk conf "" header io) files' := by
  have hpath : (s.putChunk conf "" header io).filePath =
      getFilePath conf "" io.time s.dir s.filePath := filePath_openLog io _
  rcases h.current with ⟨hstart, hofs, hdir, rfl⟩ | ⟨before, content, writing, rfl⟩
  · have names : LogNames conf (s.dir.map Prod.fst) := by
      rw [hdir]
      exact nofun
    rcases getFilePath_cases names (fun _ => hdir) dated with ⟨named, -⟩ | ⟨-, named, names'⟩
    · exact absurd hstart named
    · have written := (writing_first hio.opens hofs hdir named).putChunk header hio
      rw [hdir] at names'
      refine ⟨_, .new (s.putChunk conf "" header io).filePath, ?_, Or.inr ⟨_, _, written, rfl⟩⟩
      rw [hpath, hdir]
      exact names'
  · obtain ⟨old, buffer, hdir, -, -⟩ := writing.files
    have same : s.dir.map Prod.fst = (before ++ [(s.filePath, content)]).map Prod.fst := by
      rw [hdir, List.map_append, List.map_append]
      rfl
    have names : LogNames conf (s.dir.map Prod.fst) := by
      rw [same]
      exact h.names
    have started : s.filePath = "" → s.dir = [] := fun hempty => absurd hempty writing.named
    rcases getFilePath_cases names started dated with ⟨-, kept⟩ | ⟨fresh, named, names'⟩
    · have opened : (s.openLog io (getFilePath conf "" io.time s.dir s.filePath)).Writing
          before content := by
        rw [kept, writing.keep]
        exact writing
      have written := opened.putChunk header hio
      refine ⟨_, .last before (s.putChunk conf "" header io).filePath content ?_, ?_,
        Or.inr ⟨_, _, written, rfl⟩⟩
      · rw [hpath, kept]
      · have hnames := h.names
        rw [List.map_append] at hnames ⊢
        rw [hpath, kept]
        exact hnames
    · rw [same] at fresh names'
      have written := (writing.rotate hio.opens named fresh).putChunk header hio
      refine ⟨_, .new (s.putChunk conf "" header io).filePath, ?_, Or.inr ⟨_, _, written, rfl⟩⟩
      rw [List.map_append, hpath]
      exact names'

theorem Tidy.close (h : Tidy conf s files) : (s.ofs.close s.dir).2 = files := by
  rcases h.current with ⟨-, hofs, hdir, rfl⟩ | ⟨before, content, writing, rfl⟩
  · rw [hofs, hdir]
    rfl
  · exact writing.close

end FileSink

end FlashLog.Sinks
