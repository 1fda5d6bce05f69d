import Llte.Engine
import Llte.HandlerProcess
import Llte.LatencyStats
import Llte.OrderBookRuns
import Mathlib.Data.UInt

/-! The engine's measurements: for every consumed event the latencies of six stages go
into sample buffers and, if a file was asked for, into one line of it. The script reads
that file back and computes its own figures. -/
namespace Llte

inductive Stage where
  | parse
  | enqueue
  | queue
  | book
  | handler
  | wire
  deriving DecidableEq

/-- An event with the clock before and after it was applied. -/
structure Consumed where
  event : PipelineEvent
  t3Dequeue : UInt64
  t4Book : UInt64

namespace Stage

def all : List Stage := [parse,enqueue,queue,book,handler,wire]

/-- The column of the file. -/
def name : Stage → List Char
  | parse => "parse_ns".toList
  | enqueue => "enqueue_ns".toList
  | queue => "queue_ns".toList
  | book => "book_ns".toList
  | handler => "handler_ns".toList
  | wire => "wire_ns".toList

def ns (x : Consumed) : Stage → UInt64
  | parse => x.event.t1Parsed - x.event.t0Recv
  | enqueue => x.event.t2Enqueue - x.event.t1Parsed
  | queue => x.t3Dequeue - x.event.t2Enqueue
  | book => x.t4Book - x.t3Dequeue
  | handler => x.t4Book - x.event.t0Recv
  | wire => if x.event.msg.timestampNs < x.t4Book then x.t4Book - x.event.msg.timestampNs else 0

/-- Only the buffer of the wire stage leaves events out; the file has them all. -/
def counts (x : Consumed) : Stage → Bool
  | wire => x.event.msg.timestampNs ≠ 0 ∧ x.event.msg.timestampNs < x.t4Book
  | _ => true

end Stage

/-- `%llu` and `%u`. -/
def decimal (value : Nat) : List Char := Nat.toDigits 10 value

namespace Consumed

def csvFields (x : Consumed) : List (List Char) :=
  decimal x.event.msg.sequenceNumber.toNat::decimal x.event.recovered.toNat::
    Stage.all.map fun stage => decimal (stage.ns x).toNat

def csvLine (x : Consumed) : List Char := [','].intercalate x.csvFields ++ ['\n']

end Consumed

def csvNames : List (List Char) := "sequence".toList::"recovered".toList::Stage.all.map Stage.name

def csvHeader : List Char := [','].intercalate csvNames ++ ['\n']

/-- What the engine's loop keeps. -/
structure EngineRun (c : Config) where
  engine : Engine c
  samples : Stage → LatencySamples
  csv : Option (List Char)
  consumed : UInt64 := 0
  recoveredSeen : UInt64 := 0
  firstNs : UInt64 := 0
  lastNs : UInt64 := 0

namespace EngineRun
variable {c : Config}

def create (book : OrderBook c) (sampleCapacity : Nat) (csv : Bool) : EngineRun c where
  engine := ⟨book,{}⟩
  samples := fun _ => {capacity := sampleCapacity}
  csv := if csv then some csvHeader else none

/-- The measurements of one event, after the book's call has returned. -/
def measure (s : EngineRun c) (x : Consumed) (engine : Engine c) : EngineRun c where
  engine := engine
  samples := fun stage => if stage.counts x then (s.samples stage).add (stage.ns x) else s.samples stage
  csv := s.csv.map (· ++ x.csvLine)
  consumed := s.consumed+1
  recoveredSeen := s.recoveredSeen + x.event.recovered.toUInt64
  firstNs := if s.firstNs = 0 then x.t3Dequeue else s.firstNs
  lastNs := x.t4Book

/-- One round of the loop in which the pop succeeded. -/
def step (s : EngineRun c) (x : Consumed) : Option (EngineRun c) :=
  match s.engine.consume x.event.msg with
  | none => none
  | some (_,engine) => some (s.measure x engine)

def run (s : EngineRun c) : List Consumed → Option (EngineRun c)
  | [] => some s
  | x::rest =>
    match s.step x with
    | none => none
    | some s => run s rest

end EngineRun

namespace AnalyzeLatency

/-- The lines of the file, blank ones left out, cut at the commas. No field is quoted. -/
def csvRows (text : List Char) : List (List (List Char)) :=
  ((text.splitOn '\n').filter (· ≠ [])).map (·.splitOn ',')

/-- `csv.DictReader`: every row after the first as a dictionary. -/
def dictReader (text : List Char) : List (List (List Char × List Char)) :=
  match csvRows text with
  | [] => []
  | names::rows => rows.map names.zip

/-- `int` of a field of digits; anything else raises here. -/
def int (field : List Char) : Option ℤ :=
  if field ≠ [] ∧ field.all Char.isDigit then some (Nat.ofDigitChars 10 field 0) else none

structure Columns where
  column : Stage → List ℤ := fun _ => []
  recoveredWire : List ℤ := []
  fastPathWire : List ℤ := []

def cell (row : List (List Char × List Char)) (stage : Stage) : Option ℤ := (row.lookup stage.name).bind int

/-- One round of the loop; a missing column or a field that is no number ends the script. -/
def Columns.add (columns : Columns) (row : List (List Char × List Char)) : Option Columns :=
  if ∃ stage ∈ Stage.all, cell row stage = none then none
  else
    let grown := fun stage => columns.column stage ++ [(cell row stage).getD 0]
    let wire := (cell row .wire).getD 0
    match row.lookup "recovered".toList with
    | none => none
    | some recovered =>
      if recovered = ['1'] then some ⟨grown,columns.recoveredWire ++ [wire],columns.fastPathWire⟩
      else some ⟨grown,columns.recoveredWire,columns.fastPathWire ++ [wire]⟩

def Columns.addAll (columns : Columns) : List (List (List Char × List Char)) → Option Columns
  | [] => some columns
  | row::rest =>
    match columns.add row with
    | none => none
    | some columns => columns.addAll rest

def Columns.total (columns : Columns) : Nat := columns.fastPathWire.length + columns.recoveredWire.length

def read (text : List Char) : Option Columns := ({} : Columns).addAll (dictReader text)

/-- The numbers the script prints; the second table is there only if some event was recovered. -/
structure Report where
  total : Nat
  fastPath : Nat
  recovered : Nat
  stages : Stage → Summary
  paths : Option (Summary × Summary)

def Columns.report (columns : Columns) : Report where
  total := columns.total
  fastPath := columns.fastPathWire.length
  recovered := columns.recoveredWire.length
  stages := fun stage => summarize (columns.column stage)
  paths :=
    if columns.recoveredWire = [] then none
    else some (summarize columns.fastPathWire,summarize columns.recoveredWire)

/-- The script returns 1 without samples and 0 otherwise. -/
inductive Exit where
  | noSamples
  | reported (report : Report)

/-- The script on the text of its file; `none` where an exception ends it. -/
def main (text : List Char) : Option Exit :=
  match read text with
  | none => none
  | some columns => some (if columns.total = 0 then .noSamples else .reported columns.report)

end AnalyzeLatency

private theorem decimal_digits (value : Nat) : ∀ char ∈ decimal value, char.isDigit = true :=
  fun _ member => Nat.isDigit_of_mem_toDigits (by decide) (by decide) member

private theorem decimal_ne_nil (value : Nat) : decimal value ≠ [] := Nat.toDigits_ne_nil

private theorem int_decimal (value : Nat) : AnalyzeLatency.int (decimal value) = some (value : ℤ) := by
  rw [AnalyzeLatency.int,if_pos ⟨decimal_ne_nil value,List.all_eq_true.mpr (decimal_digits value)⟩,decimal,
    Nat.ofDigitChars_ten_toDigits]

private theorem decimal_one {value : Nat} : decimal value = ['1'] ↔ value = 1 := by
  constructor
  · intro printed
    have back := int_decimal value
    rw [printed] at back
    have one : AnalyzeLatency.int ['1'] = some 1 := by decide
    rw [one,Option.some.injEq] at back
    omega
  · rintro rfl
    decide

namespace AnalyzeLatency

/-- Lines without a line break are found again. -/
theorem splitOn_lines (lines : List (List Char)) (plain : ∀ line ∈ lines, '\n' ∉ line) :
    ((lines.map (· ++ ['\n'])).flatten).splitOn '\n' = lines ++ [[]] := by
  induction lines with
  | nil => rfl
  | cons line rest ih =>
    rw [List.map_cons,List.flatten_cons,List.append_assoc,List.singleton_append,
      List.splitOn_append_cons_self_of_not_mem (plain line List.mem_cons_self),
      ih (fun other member => plain other (List.mem_cons_of_mem _ member)),List.cons_append]

private theorem mem_intercalate {char : Char} {fields : List (List Char)} (member : char ∈ [','].intercalate fields) :
    char = ',' ∨ ∃ field ∈ fields, char ∈ field := by
  induction fields with
  | nil => simp at member
  | cons field rest ih =>
    cases rest with
    | nil =>
      rw [List.intercalate_singleton] at member
      exact .inr ⟨field,List.mem_cons_self,member⟩
    | cons next later =>
      rw [List.intercalate_cons_cons,List.mem_append,List.mem_append,List.mem_singleton] at member
      rcases member with (here | comma) | behind
      · exact .inr ⟨field,List.mem_cons_self,here⟩
      · exact .inl comma
      · rcases ih behind with comma | ⟨other,there,inside⟩
        · exact .inl comma
        · exact .inr ⟨other,List.mem_cons_of_mem _ there,inside⟩

/-- Rows of two or more fields are found again, if no field has a separator in it. -/
theorem csvRows_lines (rows : List (List (List Char))) (several : ∀ row ∈ rows, 2 ≤ row.length)
    (plain : ∀ row ∈ rows, ∀ field ∈ row, ',' ∉ field ∧ '\n' ∉ field) :
    csvRows ((rows.map fun row => [','].intercalate row ++ ['\n']).flatten) = rows := by
  have lines : (rows.map fun row => [','].intercalate row ++ ['\n']) =
      (rows.map [','].intercalate).map (· ++ ['\n']) := by rw [List.map_map]; rfl
  have broken : ∀ line ∈ rows.map [','].intercalate, '\n' ∉ line := by
    intro line member inside
    obtain ⟨row,there,rfl⟩ := List.mem_map.mp member
    rcases mem_intercalate inside with comma | ⟨field,here,inside⟩
    · simp at comma
    · exact (plain row there field here).2 inside
  have some_ : ∀ line ∈ rows.map [','].intercalate, decide (line ≠ []) = true := by
    intro line member
    obtain ⟨row,there,rfl⟩ := List.mem_map.mp member
    have length := several row there
    match row with
    | first::second::rest => simp [List.intercalate_cons_cons]
  rw [csvRows,lines,splitOn_lines _ broken,List.filter_append,List.filter_eq_self.mpr some_,
    List.filter_cons_of_neg (by simp),List.filter_nil,List.append_nil,List.map_map]
  conv_rhs => rw [← List.map_id rows]
  apply List.map_congr_left
  intro row member
  have length := several row member
  exact List.splitOn_intercalate ',' (fun field there => (plain row member field there).1)
    (by rw [← List.length_pos_iff]; omega)

end AnalyzeLatency

private theorem decimal_plain (value : Nat) : ',' ∉ decimal value ∧ '\n' ∉ decimal value :=
  ⟨fun member => absurd (decimal_digits value _ member) (by decide),
    fun member => absurd (decimal_digits value _ member) (by decide)⟩

private theorem Consumed.csvFields_plain (x : Consumed) : ∀ field ∈ x.csvFields, ',' ∉ field ∧ '\n' ∉ field := by
  intro field member
  rw [csvFields,List.mem_cons,List.mem_cons,List.mem_map] at member
  rcases member with rfl | rfl | ⟨stage,_,rfl⟩
  · exact decimal_plain _
  · exact decimal_plain _
  · exact decimal_plain _

def csvFile (xs : List Consumed) : List Char := csvHeader ++ (xs.map Consumed.csvLine).flatten

namespace AnalyzeLatency

/-- Each line of the engine is a dictionary again. -/
theorem dictReader_csvFile (xs : List Consumed) :
    dictReader (csvFile xs) = xs.map fun x => csvNames.zip x.csvFields := by
  have text : csvFile xs =
      ((csvNames::xs.map Consumed.csvFields).map fun row => [','].intercalate row ++ ['\n']).flatten := by
    rw [csvFile,List.map_cons,List.flatten_cons,List.map_map]
    rfl
  have rows : csvRows (csvFile xs) = csvNames::xs.map Consumed.csvFields := by
    rw [text]
    refine csvRows_lines _ ?_ ?_
    · intro row member
      rcases List.mem_cons.mp member with rfl | later
      · decide
      · obtain ⟨x,_,rfl⟩ := List.mem_map.mp later
        simp [Consumed.csvFields]
    · intro row member
      rcases List.mem_cons.mp member with rfl | later
      · decide
      · obtain ⟨x,_,rfl⟩ := List.mem_map.mp later
        exact x.csvFields_plain
  rw [dictReader,rows]
  simp only [List.map_map]
  rfl

private theorem cell_csvFields (x : Consumed) (stage : Stage) :
    cell (csvNames.zip x.csvFields) stage = some ((stage.ns x).toNat : ℤ) := by
  have found : (csvNames.zip x.csvFields).lookup stage.name = some (decimal (stage.ns x).toNat) := by
    cases stage <;> rfl
  rw [cell,found,Option.bind_some,int_decimal]

private theorem lookup_recovered (x : Consumed) :
    (csvNames.zip x.csvFields).lookup "recovered".toList = some (decimal x.event.recovered.toNat) := rfl

def wireNs (x : Consumed) : ℤ := (Stage.wire.ns x).toNat

private theorem Columns.add_csvFields (columns : Columns) (x : Consumed) :
    columns.add (csvNames.zip x.csvFields) = some {
      column := fun stage => columns.column stage ++ [((stage.ns x).toNat : ℤ)]
      recoveredWire := columns.recoveredWire ++ ([x].filter (·.event.recovered = 1)).map wireNs
      fastPathWire := columns.fastPathWire ++ ([x].filter (·.event.recovered ≠ 1)).map wireNs} := by
  have flag : decimal x.event.recovered.toNat = ['1'] ↔ x.event.recovered = 1 := by
    rw [decimal_one,← UInt8.toNat_inj]
    rfl
  rw [Columns.add,if_neg (by simp [cell_csvFields])]
  simp only [cell_csvFields,Option.getD_some,lookup_recovered,flag]
  split
  next recovered => simp [recovered,wireNs]
  next other => simp [other,wireNs]

private theorem Columns.addAll_csvFields (columns : Columns) (xs : List Consumed) :
    columns.addAll (xs.map fun x => csvNames.zip x.csvFields) = some {
      column := fun stage => columns.column stage ++ xs.map fun x => ((stage.ns x).toNat : ℤ)
      recoveredWire := columns.recoveredWire ++ (xs.filter (·.event.recovered = 1)).map wireNs
      fastPathWire := columns.fastPathWire ++ (xs.filter (·.event.recovered ≠ 1)).map wireNs} := by
  induction xs generalizing columns with
  | nil => simp [Columns.addAll]
  | cons x rest ih =>
    rw [List.map_cons,Columns.addAll,Columns.add_csvFields]
    dsimp only
    rw [ih]
    simp only [List.append_assoc,← List.map_append,← List.filter_append,List.singleton_append,List.map_cons]

/-- The script reads every line of the engine's file. -/
theorem read_csvFile (xs : List Consumed) : read (csvFile xs) = some {
    column := fun stage => xs.map fun x => ((stage.ns x).toNat : ℤ)
    recoveredWire := (xs.filter (·.event.recovered = 1)).map wireNs
    fastPathWire := (xs.filter (·.event.recovered ≠ 1)).map wireNs} := by
  rw [read,dictReader_csvFile,Columns.addAll_csvFields]
  simp

end AnalyzeLatency

namespace LatencySamples

private theorem add_keeps {s : LatencySamples} (short : s.samples.length ≤ s.capacity) (value : UInt64) :
    (s.add value).samples = (s.samples ++ [value]).take s.capacity ∧ (s.add value).capacity = s.capacity ∧
      (s.add value).samples.length ≤ s.capacity := by
  unfold add
  split
  next room =>
    have length : (s.samples ++ [value]).length ≤ s.capacity := by
      rw [List.length_append,List.length_singleton]
      omega
    exact ⟨(List.take_of_length_le length).symm,rfl,length⟩
  next full =>
    refine ⟨?_,rfl,short⟩
    rw [List.take_append_of_le_length (by omega),List.take_of_length_le short]

private theorem take_take_append (n : Nat) (front rest : List UInt64) : (front.take n ++ rest).take n = (front ++ rest).take n := by
  have rest_ : n - min n front.length = n - front.length := by omega
  rw [List.take_append,List.take_append,List.take_take,Nat.min_self,List.length_take,rest_]

/-- A buffer keeps the first samples it was given. -/
theorem foldl_add (values : List UInt64) {s : LatencySamples} (short : s.samples.length ≤ s.capacity) :
    (values.foldl add s).samples = (s.samples ++ values).take s.capacity := by
  induction values generalizing s with
  | nil => rw [List.foldl_nil,List.append_nil,List.take_of_length_le short]
  | cons value rest ih =>
    obtain ⟨samples,capacity,length⟩ := add_keeps short value
    rw [List.foldl_cons,ih (by rw [capacity]; exact length),samples,capacity,take_take_append,
      ← List.append_cons s.samples value rest]

end LatencySamples

namespace EngineRun
variable {c : Config}

/-- What the events `xs` add to the engine's measurements. -/
structure Measures (s : EngineRun c) (xs : List Consumed) (s' : EngineRun c) : Prop where
  samples : ∀ stage, s'.samples stage =
    ((xs.filter fun x => stage.counts x).map fun x => stage.ns x).foldl .add (s.samples stage)
  csv : s'.csv = s.csv.map (· ++ (xs.map Consumed.csvLine).flatten)
  consumed : s'.consumed = s.consumed + UInt64.ofNat xs.length
  recoveredSeen : s'.recoveredSeen = s.recoveredSeen + (xs.map fun x => x.event.recovered.toUInt64).sum

theorem run_measures (xs : List Consumed) {s : EngineRun c} {a : PriceTimeBook}
    (agree : OrderBook.Represents s.engine.book a) : ∃ s', s.run xs = some s' ∧ Measures s xs s' := by
  induction xs generalizing s a with
  | nil => exact ⟨s,rfl,fun _ => rfl,by simp,by simp,by simp⟩
  | cons x rest ih =>
    obtain ⟨engine,consumed,agree',_⟩ := Engine.consume_refines agree x.event.msg
    have stepped : s.step x = some (s.measure x engine) := by rw [step,consumed]
    obtain ⟨s',ran,measures⟩ := ih (s := s.measure x engine) agree'
    refine ⟨s',by rw [run,stepped]; exact ran,?_,?_,?_,?_⟩
    · intro stage
      rw [measures.samples,measure]
      dsimp only
      cases counted : stage.counts x <;> simp [counted]
    · rw [measures.csv,measure]
      simp [Function.comp_def]
    · rw [measures.consumed,measure]
      simp only [List.length_cons,UInt64.ofNat_add]
      grind
    · rw [measures.recoveredSeen,measure]
      simp only [List.map_cons,List.sum_cons]
      grind

end EngineRun

private theorem readings_take_iff {α : Type} (xs : List α) (counts : α → Bool) (ns : α → UInt64) (capacity : Nat) :
    (xs.map fun x => ((ns x).toNat : ℤ)) = readings ((((xs.filter counts).map ns)).take capacity) ↔
      xs.length ≤ capacity ∧ ∀ x ∈ xs, counts x = true := by
  constructor
  · intro same
    have lengths := congrArg List.length same
    have fewer := List.length_filter_le counts xs
    rw [readings,List.length_map,List.length_map,List.length_take,List.length_map] at lengths
    exact ⟨by omega,List.length_filter_eq_length_iff.mp (by omega)⟩
  · rintro ⟨room,all⟩
    rw [List.filter_eq_self.mpr all,List.take_of_length_le (by rw [List.length_map]; exact room),readings,List.map_map]
    rfl

private theorem recovered_sum (xs : List Consumed) (flags : ∀ x ∈ xs, x.event.recovered ≤ 1) :
    (xs.map fun x => x.event.recovered.toUInt64).sum = UInt64.ofNat (xs.filter (·.event.recovered = 1)).length := by
  induction xs with
  | nil => rfl
  | cons x rest ih =>
    have flag : x.event.recovered = 0 ∨ x.event.recovered = 1 := by
      have low := UInt8.le_iff_toNat_le.mp (flags x List.mem_cons_self)
      rw [← UInt8.toNat_inj,← UInt8.toNat_inj]
      change _ = 0 ∨ _ = 1
      change _ ≤ 1 at low
      omega
    rw [List.map_cons,List.sum_cons,ih fun other member => flags other (List.mem_cons_of_mem _ member)]
    rcases flag with none | one
    · rw [none,List.filter_cons_of_neg (by simp [none])]
      exact UInt64.zero_add _
    · rw [one,List.filter_cons_of_pos (by simp [one]),List.length_cons,UInt64.ofNat_add,UInt64.add_comm]
      rfl

/-- The script and the engine. The script gets through the file of every run and reports, or
says that there are no samples where the engine has consumed no event. For every stage its
column is what is in the engine's buffer exactly if the buffer was large enough for all
events and the stage left none of them out; and its two groups are the events the engine
counted. -/
theorem script_reads_engine {c : Config} (book : OrderBook c) (created : OrderBook.create c = some book)
    (sampleCapacity : Nat) (xs : List Consumed) (flags : ∀ x ∈ xs, x.event.recovered ≤ 1) :
    ∃ s file columns, (EngineRun.create book sampleCapacity true).run xs = some s ∧ s.csv = some file ∧
      AnalyzeLatency.read file = some columns ∧
      AnalyzeLatency.main file = some (if xs = [] then .noSamples else .reported columns.report) ∧
      (∀ stage, columns.column stage = readings (s.samples stage).samples ↔
        xs.length ≤ sampleCapacity ∧ ∀ x ∈ xs, stage.counts x = true) ∧
      s.consumed = UInt64.ofNat columns.total ∧ s.recoveredSeen = UInt64.ofNat columns.recoveredWire.length := by
  obtain ⟨s,ran,measures⟩ := EngineRun.run_measures (s := EngineRun.create book sampleCapacity true) xs
    (OrderBook.create_represents created)
  have reads := AnalyzeLatency.read_csvFile xs
  generalize read : AnalyzeLatency.Columns.mk .. = columns at reads
  have total : columns.total = xs.length := by
    have parts := List.length_eq_length_filter_add (l := xs) (fun x => decide (x.event.recovered = 1))
    rw [← read,AnalyzeLatency.Columns.total,List.length_map,List.length_map,parts,Nat.add_comm]
    simp
  refine ⟨s,csvFile xs,columns,ran,measures.csv,reads,?_,?_,?_,?_⟩
  · rw [AnalyzeLatency.main,reads]
    simp only [total,List.length_eq_zero_iff]
  · intro stage
    rw [measures.samples,LatencySamples.foldl_add _ (Nat.zero_le _),← read]
    exact readings_take_iff xs (fun x => stage.counts x) (fun x => stage.ns x) sampleCapacity
  · rw [measures.consumed,total]
    exact UInt64.zero_add _
  · rw [measures.recoveredSeen,recovered_sum xs flags,← read,List.length_map]
    exact UInt64.zero_add _

def unstampedEvent : Consumed := ⟨⟨{sequenceNumber := 1},1,2,3,0⟩,4,5⟩

/-- An event without a publish time: the file has a wire latency for it, the buffer has none. -/
theorem script_reads_engine_unstamped : ∃ book s file columns, OrderBook.create OrderBook.narrow = some book ∧
    (EngineRun.create book 8 true).run [unstampedEvent] = some s ∧ s.csv = some file ∧
      AnalyzeLatency.read file = some columns ∧ AnalyzeLatency.main file = some (.reported columns.report) ∧
      columns.column .parse = readings (s.samples .parse).samples ∧
      columns.column .wire ≠ readings (s.samples .wire).samples := by
  obtain ⟨book,created⟩ : ∃ book, OrderBook.create OrderBook.narrow = some book := ⟨_,if_pos (by decide)⟩
  obtain ⟨s,file,columns,ran,written,reads,ended,same,_⟩ := script_reads_engine book created 8 [unstampedEvent] (by decide)
  exact ⟨book,s,file,columns,created,ran,written,reads,ended,(same .parse).mpr (by decide),
    fun wire => absurd ((same .wire).mp wire) (by decide)⟩

end Llte
