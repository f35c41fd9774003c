import ContentionProf.Profiler
import ContentionProf.Numerals
import Mathlib.Algebra.Order.Field.Rat
import Mathlib.Tactic.FieldSimp
import Mathlib.Tactic.Linarith
/-!
# ProfilerText — the profile as text (`profiler.cpp`)

What the stream operators write, and a reader of the format: a title, the unit of the first column in cycles a second,
then one line a record up to the first line that is none (the memory map).
-/
namespace ContentionProf
namespace Profiler

open Numerals

/-! ## The writer -/

/-- A line of `/proc/self/maps`: an address range, a blank, and the rest. -/
structure MapsLine where
  first : List Char
  last : List Char
  rest : List Char
  first_ne : first ≠ []
  no_blank : ' ' ∉ first ++ '-' :: last
  no_newline : '\n' ∉ first ++ '-' :: last ++ ' ' :: rest

def MapsLine.text (l : MapsLine) : List Char := l.first ++ '-' :: l.last ++ ' ' :: l.rest

theorem MapsLine.text_no_newline (l : MapsLine) : '\n' ∉ l.text := l.no_newline

/-- `Util::get_self_maps`. -/
def getSelfMaps (lines : List MapsLine) : List Char := lines.flatMap (fun l => l.text ++ ['\n'])

/-- `operator<<` of a `void*`: a null pointer has no prefix. -/
def pointerText (a : U64) : List Char := if a = 0 then ['0'] else '0' :: 'x' :: Nat.toDigits 16 a.toNat

/-- Lines 61–65; the count is a `size_t`, for which the conversion is defined where it is not negative. -/
def recordText (durationNs count : Int) (frames : List U64) : List Char :=
  signed durationNs ++ ' ' :: signed count ++ " @".toList ++ frames.flatMap (fun a => ' ' :: pointerText a) ++ ['\n']

/-- Line 38. -/
def headerText : List Char := "--- contention\ncycles/second=10000000000\n".toList

def Line.text (maps : List MapsLine) : Line → List Char
  | .header                         => headerText
  | .record durationNs count frames => recordText durationNs count frames
  | .selfMaps                       => getSelfMaps maps

/-- The content of the file. -/
def State.text (s : State) (maps : List MapsLine) : List Char := s.file.flatMap (Line.text maps)

/-- What a flush finds: the samples the set points to, in the order in which it is walked. -/
structure Flush where
  mem : Ptr → SampledContention
  order : List Ptr

def Flush.records (f : Flush) : List SampledContention := f.order.map f.mem

/-- `flush_to_disk` of whatever the set holds then. -/
def State.flush (s : State) (f : Flush) (ending : Bool) : State :=
  { s with mem := f.mem, hashSet := f.order }.flushToDisk f.order ending

/-- A file after some flushes, and perhaps the one of the destructor. -/
def flushAll (fs : List Flush) (last : Option Flush) : State :=
  let s := fs.foldl (fun s f => s.flush f false) initState.initIfNeeded
  match last with
  | none   => s
  | some f => s.flush f true

/-- The records flushed, in the order written. -/
def flushed (fs : List Flush) (last : Option Flush) : List SampledContention :=
  fs.flatMap Flush.records ++ last.elim [] Flush.records

/-! ## The reader -/

structure ProfileRecord where
  cycles : Int
  count : Int
  frames : List U64
deriving DecidableEq

structure Profile where
  cyclesPerSecond : Nat
  records : List ProfileRecord
deriving DecidableEq

def readFrame : List Char → Option U64
  | '0' :: 'x' :: cs => (readNat 16 cs).map (BitVec.ofNat 64)
  | cs               => (readNat 16 cs).map (BitVec.ofNat 64)

def readFrames : List (List Char) → Option (List U64)
  | []      => some []
  | w :: ws => (readFrame w).bind (fun a => (readFrames ws).map (a :: ·))

/-- `cycles count @ frame frame ...` -/
def readRecord (line : List Char) : Option ProfileRecord :=
  match line.splitOn ' ' with
  | cycles :: count :: ['@'] :: frames =>
    (readSigned cycles).bind (fun c => (readSigned count).bind (fun n => (readFrames frames).map (⟨c, n, ·⟩)))
  | _                                  => none

/-- The records up to the first line that is none. -/
def readRecords : List (List Char) → List ProfileRecord
  | []      => []
  | l :: ls => match readRecord l with
    | some r => r :: readRecords ls
    | none   => []

/-- `cycles/second=N` -/
def readRate (line : List Char) : Option Nat :=
  if "cycles/second=".toList.isPrefixOf line then readNat 10 (line.drop "cycles/second=".toList.length) else none

def readProfile (text : List Char) : Option Profile :=
  match text.splitOn '\n' with
  | title :: rate :: lines =>
    if title = "--- contention".toList then (readRate rate).map (⟨·, readRecords lines⟩) else none
  | _                      => none

/-- The waiting time of a record of a profile. -/
def Profile.seconds (p : Profile) (r : ProfileRecord) : ℚ := r.cycles / p.cyclesPerSecond

/-! ## What is written is read -/

theorem digit_ne_blank : ∀ d < 16, d.digitChar ≠ ' ' := by decide

theorem digit_ne_newline : ∀ d < 16, d.digitChar ≠ '\n' := by decide

theorem not_mem_pointerText {c : Char} {a : U64} (hx : c ≠ 'x') (hc : ∀ d < 16, d.digitChar ≠ c) :
    c ∉ pointerText a := by
  have h0 : c ≠ '0' := fun h => hc 0 (by decide) h.symm
  unfold pointerText
  split
  · rw [List.mem_singleton]
    exact h0
  · rw [List.mem_cons, List.mem_cons, not_or, not_or]
    exact ⟨h0, hx, not_mem_toDigits (by decide) (by decide) hc⟩

theorem readFrame_pointerText (a : U64) : readFrame (pointerText a) = some a := by
  unfold pointerText
  split
  · rename_i h
    rw [h]
    rfl
  · rw [readFrame, readNat_toDigits (by decide) (by decide), Option.map_some, BitVec.ofNat_toNat, BitVec.setWidth_eq]

theorem readFrames_map : ∀ frames : List U64, readFrames (frames.map pointerText) = some frames
  | []          => rfl
  | a :: frames => by
    rw [List.map_cons, readFrames, readFrame_pointerText, Option.bind_some, readFrames_map frames]
    rfl

theorem intercalate_cons (c : Char) (ws : List (List Char)) : ∀ w,
    [c].intercalate (w :: ws) = w ++ ws.flatMap (fun w => c :: w) := by
  induction ws with
  | nil => intro w; simp [List.intercalate]
  | cons w' ws ih =>
    intro w
    have hstep : [c].intercalate (w :: w' :: ws) = w ++ c :: [c].intercalate (w' :: ws) := by
      simp [List.intercalate]
    rw [hstep, ih w', List.flatMap_cons, List.cons_append]

/-- The words of a record. -/
def recordWords (durationNs count : Int) (frames : List U64) : List (List Char) :=
  signed durationNs :: signed count :: ['@'] :: frames.map pointerText

theorem recordText_eq (durationNs count : Int) (frames : List U64) :
    recordText durationNs count frames = [' '].intercalate (recordWords durationNs count frames) ++ ['\n'] := by
  have hat : " @".toList = [' ', '@'] := rfl
  rw [recordText, recordWords, intercalate_cons, List.flatMap_cons, List.flatMap_cons, List.flatMap_map, hat]
  simp

theorem recordWords_no_blank {durationNs count : Int} {frames : List U64} :
    ∀ w ∈ recordWords durationNs count frames, ' ' ∉ w := by
  intro w hw
  have hs : ∀ n, ' ' ∉ signed n := fun n => not_mem_signed (by decide) digit_ne_blank
  rcases List.mem_cons.1 hw with rfl | hw
  · exact hs _
  rcases List.mem_cons.1 hw with rfl | hw
  · exact hs _
  rcases List.mem_cons.1 hw with rfl | hw
  · decide
  · obtain ⟨a, -, rfl⟩ := List.mem_map.1 hw
    exact not_mem_pointerText (by decide) digit_ne_blank

/-- **A record is read back.** -/
theorem readRecord_recordWords (durationNs count : Int) (frames : List U64) :
    readRecord ([' '].intercalate (recordWords durationNs count frames)) = some ⟨durationNs, count, frames⟩ := by
  unfold readRecord
  rw [List.splitOn_intercalate ' ' recordWords_no_blank (List.cons_ne_nil _ _)]
  simp only [recordWords, readSigned_signed, Option.bind_some, readFrames_map, Option.map_some]

theorem record_no_newline (durationNs count : Int) (frames : List U64) :
    '\n' ∉ [' '].intercalate (recordWords durationNs count frames) := by
  have hs : ∀ n, '\n' ∉ signed n := fun n => not_mem_signed (by decide) digit_ne_newline
  have hp : ∀ a, '\n' ∉ pointerText a := fun a => not_mem_pointerText (by decide) digit_ne_newline
  rw [recordWords, intercalate_cons, List.flatMap_cons, List.flatMap_cons, List.flatMap_map]
  simp [hs, hp]

/-- **The records written are read, up to what follows them.** -/
theorem readRecords_append (cs : List SampledContention) (maps : List MapsLine) (rest : List Char) :
    readRecords ((cs.flatMap (fun c => c.line.text maps) ++ rest).splitOn '\n') =
      cs.map (fun c => ⟨c.durationNs, c.count.ceil, c.stack.drop skippedStackFrames⟩) ++
        readRecords (rest.splitOn '\n') := by
  induction cs with
  | nil => rfl
  | cons c cs ih =>
    have hc : c.line.text maps =
        [' '].intercalate (recordWords c.durationNs c.count.ceil (c.stack.drop skippedStackFrames)) ++ ['\n'] :=
      recordText_eq ..
    rw [List.flatMap_cons, List.append_assoc, hc, List.append_assoc, List.singleton_append,
      List.splitOn_append_cons_self_of_not_mem (record_no_newline _ _ _), readRecords, readRecord_recordWords, ih]
    rfl

theorem readRecord_mapsLine (l : MapsLine) : readRecord l.text = none := by
  unfold readRecord MapsLine.text
  rw [List.splitOn_append_cons_self_of_not_mem l.no_blank]
  split
  · rename_i heq
    rw [← (List.cons.inj heq).1, readSigned_inner_minus l.first_ne]
    rfl
  · rfl

/-- The memory map ends the records. -/
theorem readRecords_getSelfMaps : ∀ maps : List MapsLine, readRecords ((getSelfMaps maps).splitOn '\n') = []
  | []        => rfl
  | l :: maps => by
    have hl : getSelfMaps (l :: maps) = l.text ++ '\n' :: getSelfMaps maps := by
      simp [getSelfMaps]
    rw [hl, List.splitOn_append_cons_self_of_not_mem l.text_no_newline, readRecords, readRecord_mapsLine]

/-! ## The whole file -/

theorem foldl_flush_file : ∀ (fs : List Flush) (s : State),
    (fs.foldl (fun s f => s.flush f false) s).file =
      s.file ++ (fs.flatMap Flush.records).map SampledContention.line
  | [], s      => by simp
  | f :: fs, s => by
    have hf : (s.flush f false).file = s.file ++ f.records.map SampledContention.line := by
      simp [State.flush, State.flushToDisk, Flush.records]
    rw [List.foldl_cons, foldl_flush_file fs, hf, List.flatMap_cons, List.map_append, List.append_assoc]

theorem flushAll_file (fs : List Flush) (last : Option Flush) :
    (flushAll fs last).file =
      .header :: (flushed fs last).map SampledContention.line ++ if last.isSome then [.selfMaps] else [] := by
  unfold flushAll flushed
  cases last with
  | none =>
    rw [foldl_flush_file]
    simp [State.initIfNeeded, initState]
  | some f =>
    have hfs := foldl_flush_file fs initState.initIfNeeded
    simp only [State.flush, State.flushToDisk] at hfs ⊢
    rw [hfs]
    simp [State.initIfNeeded, initState, Flush.records]

/-- What the reader makes of a record. -/
def SampledContention.read (c : SampledContention) : ProfileRecord :=
  ⟨c.durationNs, c.count.ceil, c.stack.drop skippedStackFrames⟩

/-- **The whole file is read back**: the unit of its title, and every record with its count and frames. -/
theorem readProfile_flushAll (fs : List Flush) (last : Option Flush) (maps : List MapsLine) :
    readProfile ((flushAll fs last).text maps) =
      some ⟨10000000000, (flushed fs last).map SampledContention.read⟩ := by
  have htail : ∃ rest, (flushAll fs last).text maps =
      headerText ++ ((flushed fs last).flatMap (fun c => c.line.text maps) ++ rest) ∧
      readRecords (rest.splitOn '\n') = [] := by
    unfold State.text
    rw [flushAll_file, List.cons_append, List.flatMap_cons, List.flatMap_append, List.flatMap_map]
    cases last with
    | none => exact ⟨[], rfl, rfl⟩
    | some f =>
      refine ⟨getSelfMaps maps, ?_, readRecords_getSelfMaps maps⟩
      simp [Line.text]
  obtain ⟨rest, htext, hrest⟩ := htail
  have hheader : ∀ text, (headerText ++ text).splitOn '\n' =
      "--- contention".toList :: "cycles/second=10000000000".toList :: text.splitOn '\n' := fun text => rfl
  have hrate : readRate "cycles/second=10000000000".toList = some 10000000000 := by decide
  unfold readProfile
  rw [htext, hheader]
  simp only [if_true, hrate, Option.map_some, readRecords_append, hrest, List.append_nil]
  rfl

/-- **A profile tells what was recorded**: for each record in its place the waiting time in seconds, the count rounded
up and the frames. -/
def Tells (text : List Char) (cs : List SampledContention) : Prop :=
  ∃ p, readProfile text = some p ∧ p.records.map (fun r => (p.seconds r, r.count, r.frames)) =
    cs.map (fun c => ((c.durationNs : ℚ) / 10 ^ 9, c.count.ceil, c.stack.drop skippedStackFrames))

/-- **The header is off by ten**: a profile tells what was recorded exactly if no record has waited at all. -/
theorem tells_flushAll_iff (fs : List Flush) (last : Option Flush) (maps : List MapsLine) :
    Tells ((flushAll fs last).text maps) (flushed fs last) ↔ ∀ c ∈ flushed fs last, c.durationNs = 0 := by
  have hread := readProfile_flushAll fs last maps
  -- a time in the header's unit is a tenth of the time in nanoseconds
  have hone : ∀ d : Int, (d : ℚ) / ((10000000000 : Nat) : ℚ) = d / 10 ^ 9 ↔ d = 0 := by
    intro d
    constructor
    · intro h
      have hd : (d : ℚ) = 0 := by
        push_cast at h
        field_simp at h
        linarith
      exact_mod_cast hd
    · rintro rfl
      simp
  have hmap : (flushed fs last).map (fun c => ((c.durationNs : ℚ) / ((10000000000 : Nat) : ℚ), c.count.ceil,
        c.stack.drop skippedStackFrames)) =
      (flushed fs last).map (fun c => ((c.durationNs : ℚ) / 10 ^ 9, c.count.ceil, c.stack.drop skippedStackFrames)) ↔
      ∀ c ∈ flushed fs last, c.durationNs = 0 := by
    rw [List.map_inj_left]
    refine forall₂_congr (fun c _ => ?_)
    rw [Prod.mk.injEq, hone]
    exact and_iff_left rfl
  rw [← hmap]
  constructor
  · rintro ⟨p, hp, htells⟩
    rw [hread] at hp
    cases hp
    rw [List.map_map] at htells
    exact htells
  · intro h
    refine ⟨_, hread, ?_⟩
    rw [List.map_map]
    exact h

/-- One sample that waited 1000 ns. -/
def oneFlush : Flush := ⟨fun _ => ⟨1000, 3 / 2, [1, 2, 4198400, 0]⟩, [1]⟩

/-- **It is told as 100 ns.** -/
theorem oneFlush_told_short : (flushed [oneFlush] none).map SampledContention.durationNs = [1000] ∧
    readProfile ((flushAll [oneFlush] none).text []) = some ⟨10000000000, [⟨1000, 2, [4198400, 0]⟩]⟩ ∧
    ¬ Tells ((flushAll [oneFlush] none).text []) (flushed [oneFlush] none) := by
  have hread : readProfile ((flushAll [oneFlush] none).text []) =
      some ⟨10000000000, [⟨1000, 2, [4198400, 0]⟩]⟩ := by decide +kernel
  refine ⟨rfl, hread, ?_⟩
  rintro ⟨p, hp, htells⟩
  rw [hread] at hp
  cases hp
  have hsec := congrArg (fun l => l.map Prod.fst) htells
  simp [Profile.seconds, flushed, oneFlush, Flush.records] at hsec
  norm_num at hsec

end Profiler
end ContentionProf
