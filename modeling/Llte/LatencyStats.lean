import Llte.Foundation.Rounding

/-! Latency samples and their summaries: the one the engine prints, and the one of the
script that reads the engine's CSV file. Fractions, ranks and means are read over the
rational numbers. -/
namespace Llte
open Foundation

/-- A sample buffer; `capacity` is what was reserved for it. -/
structure LatencySamples where
  samples : List UInt64 := []
  capacity : Nat
  dropped : UInt64 := 0

namespace LatencySamples

structure Summary where
  count : UInt64 := 0
  min : UInt64 := 0
  p50 : UInt64 := 0
  p90 : UInt64 := 0
  p95 : UInt64 := 0
  p99 : UInt64 := 0
  p999 : UInt64 := 0
  max : UInt64 := 0
  mean : ℚ := 0

def add (s : LatencySamples) (nanoseconds : UInt64) : LatencySamples :=
  if s.samples.length < s.capacity then {s with samples := s.samples ++ [nanoseconds]}
  else {s with dropped := s.dropped+1}

/-- Adding one half and cutting off; the samples are sorted. -/
def percentile (samples : List UInt64) (fraction : ℚ) : UInt64 :=
  let last : ℚ := (samples.length - 1 : Nat)
  let index := ⌊fraction*last + 1/2⌋.toNat
  samples.getD (min index (samples.length - 1)) 0

def sorted (samples : List UInt64) : List UInt64 := samples.mergeSort fun a b => decide (a ≤ b)

/-- The buffer stays sorted. -/
def summarize (s : LatencySamples) : Summary × LatencySamples :=
  if s.samples = [] then ({},s)
  else
    let ordered := sorted s.samples
    ({count := UInt64.ofNat ordered.length
      min := ordered.headD 0
      max := ordered.getLastD 0
      p50 := percentile ordered (1/2)
      p90 := percentile ordered (9/10)
      p95 := percentile ordered (19/20)
      p99 := percentile ordered (99/100)
      p999 := percentile ordered (999/1000)
      mean := (ordered.map fun value => (value.toNat : ℚ)).sum/ordered.length},
     {s with samples := ordered})

end LatencySamples

namespace AnalyzeLatency

/-- The dictionary that the script makes for one column. -/
structure Summary where
  count : Nat
  p50 : ℤ
  p90 : ℤ
  p95 : ℤ
  p99 : ℤ
  p999 : ℤ
  max : ℤ
  mean : ℚ

/-- The script rounds half to even. -/
def percentile (values : List ℤ) (fraction : ℚ) : ℤ :=
  if values = [] then 0
  else
    let index := min (halfEven (fraction*(values.length - 1 : Nat))) (values.length - 1 : Nat)
    values.getD index.toNat 0

def sorted (values : List ℤ) : List ℤ := values.mergeSort fun a b => decide (a ≤ b)

def summarize (values : List ℤ) : Summary :=
  let ordered := sorted values
  {count := ordered.length
   p50 := percentile ordered (1/2)
   p90 := percentile ordered (9/10)
   p95 := percentile ordered (19/20)
   p99 := percentile ordered (99/100)
   p999 := percentile ordered (999/1000)
   max := ordered.getLastD 0
   mean := if ordered = [] then 0 else (ordered.map fun value => (value : ℚ)).sum/ordered.length}

end AnalyzeLatency

/-- The samples as the script reads them back. -/
def readings (samples : List UInt64) : List ℤ := samples.map fun value => (value.toNat : ℤ)

private theorem readings_inj {first second : UInt64} (same : (first.toNat : ℤ) = second.toNat) : first = second :=
  UInt64.toNat_inj.mp (Int.ofNat_inj.mp same)

private theorem sorted_readings (samples : List UInt64) :
    AnalyzeLatency.sorted (readings samples) = readings (LatencySamples.sorted samples) := by
  unfold AnalyzeLatency.sorted LatencySamples.sorted readings
  refine (List.map_mergeSort ?_).symm
  intro first _ second _
  rw [decide_eq_decide,UInt64.le_iff_toNat_le]
  exact Int.ofNat_le.symm

private theorem getLastD_readings (samples : List UInt64) :
    (readings samples).getLastD 0 = ((samples.getLastD 0).toNat : ℤ) := by
  rw [readings,List.getLastD_eq_getLast?,List.getLastD_eq_getLast?,List.getLast?_map,
    show (0 : ℤ) = (fun value : UInt64 => (value.toNat : ℤ)) 0 from rfl,Option.getD_map]

private theorem getD_readings (samples : List UInt64) (index : Nat) :
    (readings samples).getD index 0 = ((samples.getD index 0).toNat : ℤ) := by
  rw [readings,List.getD_eq_getElem?_getD,List.getD_eq_getElem?_getD,List.getElem?_map,
    show (0 : ℤ) = (fun value : UInt64 => (value.toNat : ℤ)) 0 from rfl,Option.getD_map]

/-- The rank is halfway between an even position and the next one. -/
def TiedRank (top bottom count : Nat) : Prop :=
  2*(top*(count-1) % bottom) = bottom ∧ top*(count-1)/bottom % 2 = 0

section Percentile
variable {ordered : List UInt64}

private theorem rank_ratio (top bottom last : Nat) : (top : ℚ)/bottom*last = ((top*last : Nat) : ℚ)/bottom := by
  push_cast
  ring

private theorem percentile_readings (some_ : ordered ≠ []) (fraction : ℚ) :
    AnalyzeLatency.percentile (readings ordered) fraction = ((ordered.getD
      (min (halfEven (fraction*(ordered.length - 1 : Nat))) (ordered.length - 1 : Nat)).toNat 0).toNat : ℤ) := by
  have filled : readings ordered ≠ [] := by simpa [readings] using some_
  have length : (readings ordered).length = ordered.length := List.length_map _
  rw [AnalyzeLatency.percentile,if_neg filled]
  dsimp only
  rw [getD_readings,length]

/-- The two percentiles agree unless the rank is tied between two different samples. -/
theorem percentile_agree_iff (some_ : ordered ≠ []) (top bottom : Nat) (pos : 0 < bottom) (proper : top ≤ bottom) :
    ((LatencySamples.percentile ordered (top/bottom)).toNat : ℤ) =
        AnalyzeLatency.percentile (readings ordered) (top/bottom) ↔
      (TiedRank top bottom ordered.length →
        ordered.getD (top*(ordered.length-1)/bottom) 0 = ordered.getD (top*(ordered.length-1)/bottom+1) 0) := by
  rw [percentile_readings some_,LatencySamples.percentile,rank_ratio,TiedRank]
  have most : top*(ordered.length-1) ≤ bottom*(ordered.length-1) := Nat.mul_le_mul_right _ proper
  generalize ordered.length - 1 = last at most ⊢
  generalize top*last = rank at most ⊢
  by_cases tie : EvenTie ((rank : ℚ)/bottom)
  · have tied := (evenTie_ratio pos).mp tie
    -- the upper neighbour of a tied rank exists
    have inside : rank/bottom < last := by
      apply Nat.div_lt_of_lt_mul
      refine Nat.lt_of_le_of_ne most ?_
      rintro rfl
      rw [Nat.mul_mod_right] at tied
      omega
    have upper : min (⌊(rank : ℚ)/bottom + 1/2⌋.toNat) last = rank/bottom+1 := by
      rw [tie.floor_add_half,floor_ratio]
      generalize rank/bottom = position at inside ⊢
      omega
    have lower : (min (halfEven ((rank : ℚ)/bottom)) last).toNat = rank/bottom := by
      rw [tie.halfEven,floor_ratio]
      generalize rank/bottom = position at inside ⊢
      omega
    rw [upper,lower]
    constructor
    · intro same _
      exact (readings_inj same).symm
    · intro level
      rw [level tied]
  · refine iff_of_true ?_ (fun tied => absurd ((evenTie_ratio pos).mpr tied) tie)
    rw [halfEven_eq_floor tie]
    have same : min (⌊(rank : ℚ)/bottom + 1/2⌋.toNat) last = (min ⌊(rank : ℚ)/bottom + 1/2⌋ last).toNat := by
      omega
    rw [same]

end Percentile

/-- The figures that both summaries have, but for the means. -/
structure SameFigures (engine : LatencySamples.Summary) (script : AnalyzeLatency.Summary) : Prop where
  p50 : (engine.p50.toNat : ℤ) = script.p50
  p90 : (engine.p90.toNat : ℤ) = script.p90
  p95 : (engine.p95.toNat : ℤ) = script.p95
  p99 : (engine.p99.toNat : ℤ) = script.p99
  p999 : (engine.p999.toNat : ℤ) = script.p999
  max : (engine.max.toNat : ℤ) = script.max

/-- Where a rank is tied, the two samples next to it are equal. -/
structure TiesLevel (samples : List UInt64) : Prop where
  half : samples.length % 4 = 2 →
    (LatencySamples.sorted samples).getD ((samples.length-1)/2) 0 =
      (LatencySamples.sorted samples).getD ((samples.length-1)/2+1) 0
  ninety : samples.length % 20 = 6 →
    (LatencySamples.sorted samples).getD (9*(samples.length-1)/10) 0 =
      (LatencySamples.sorted samples).getD (9*(samples.length-1)/10+1) 0
  ninetyFive : samples.length % 40 = 31 →
    (LatencySamples.sorted samples).getD (19*(samples.length-1)/20) 0 =
      (LatencySamples.sorted samples).getD (19*(samples.length-1)/20+1) 0
  ninetyNine : samples.length % 200 = 151 →
    (LatencySamples.sorted samples).getD (99*(samples.length-1)/100) 0 =
      (LatencySamples.sorted samples).getD (99*(samples.length-1)/100+1) 0
  perMille : samples.length % 2000 = 1501 →
    (LatencySamples.sorted samples).getD (999*(samples.length-1)/1000) 0 =
      (LatencySamples.sorted samples).getD (999*(samples.length-1)/1000+1) 0

private theorem length_sorted (samples : List UInt64) : (LatencySamples.sorted samples).length = samples.length :=
  List.length_mergeSort samples

/-- Multiplying by one less than the divisor turns a remainder around. -/
theorem turned_rank {bottom rest : Nat} (quotient : Nat) (inside : rest < bottom) (some_ : 0 < rest) :
    (bottom-1)*(bottom*quotient+rest) % bottom = bottom - rest ∧
      (bottom-1)*(bottom*quotient+rest)/bottom = (bottom-1)*quotient+(rest-1) := by
  have whole : (bottom-1)*(bottom*quotient+rest) = bottom*((bottom-1)*quotient+(rest-1))+(bottom-rest) := by
    obtain ⟨b,rfl⟩ : ∃ b, bottom = b+1 := ⟨bottom-1,by omega⟩
    obtain ⟨r,rfl⟩ : ∃ r, rest = r+1 := ⟨rest-1,by omega⟩
    obtain ⟨d,rfl⟩ : ∃ d, b = r+1+d := ⟨b-(r+1),by omega⟩
    have left : r+1+d+1-(r+1) = d+1 := by omega
    rw [Nat.add_sub_cancel,Nat.add_sub_cancel,left]
    ring
  have pos : 0 < bottom := by omega
  rw [whole,Nat.mul_add_mod,Nat.mul_add_div pos]
  exact ⟨Nat.mod_eq_of_lt (by omega),by rw [Nat.div_eq_of_lt (by omega),Nat.add_zero]⟩

private theorem tied_rest {half quotient rest : Nat} (inside : rest < 2*half) :
    TiedRank (2*half-1) (2*half) (2*half*quotient+rest+1) ↔ rest = half ∧ (quotient+half) % 2 = 1 := by
  rw [TiedRank,Nat.add_sub_cancel]
  by_cases none : rest = 0
  · subst none
    have whole : (2*half-1)*(2*half*quotient+0) = 2*half*((2*half-1)*quotient) := by ring
    rw [whole,Nat.mul_mod_right]
    omega
  · obtain ⟨remainder,position⟩ := turned_rank quotient inside (Nat.pos_of_ne_zero none)
    have parity : (2*half-1)*quotient+quotient = 2*(half*quotient) := by
      rw [← Nat.succ_mul,Nat.succ_eq_add_one,Nat.sub_add_cancel (by omega),Nat.mul_assoc]
    rw [remainder,position]
    generalize (2*half-1)*quotient = lower at parity ⊢
    generalize half*quotient = product at parity
    omega

/-- The ties of a fraction one step below one come back with twice its divisor. -/
theorem tied_iff (half : Nat) {count : Nat} (pos : 0 < half) (some_ : 0 < count) :
    TiedRank (2*half-1) (2*half) count ↔
      count % (2*(2*half)) = if half % 2 = 1 then half+1 else 3*half+1 := by
  obtain ⟨last,rfl⟩ : ∃ last, count = last+1 := ⟨count-1,by omega⟩
  have inside := Nat.mod_lt last (show 0 < 2*half by omega)
  have divided := Nat.div_add_mod last (2*half)
  generalize last % (2*half) = rest at divided inside
  obtain ⟨k,bit,short,halved⟩ : ∃ k bit, bit < 2 ∧ last/(2*half) = 2*k+bit :=
    ⟨last/(2*half)/2,last/(2*half)%2,by omega,by omega⟩
  rw [halved] at divided
  have shifted : 2*half*(2*k+bit)+rest+1 = 2*(2*half)*k+(2*half*bit+rest+1) := by ring
  rw [← divided,tied_rest inside,shifted,Nat.mul_add_mod]
  obtain rfl | rfl : bit = 0 ∨ bit = 1 := by omega
  · have small : 2*half*0+rest+1 < 2*(2*half) := by omega
    rw [Nat.mod_eq_of_lt small]
    split <;> omega
  · by_cases full : rest+1 = 2*half
    · rw [show 2*half*1+rest+1 = 2*(2*half) by omega,Nat.mod_self]
      split <;> omega
    · have small : 2*half*1+rest+1 < 2*(2*half) := by omega
      rw [Nat.mod_eq_of_lt small]
      split <;> omega

private theorem tied_half {count : Nat} (some_ : 0 < count) : TiedRank 1 2 count ↔ count % 4 = 2 :=
  tied_iff 1 (by decide) some_

private theorem tied_ninety {count : Nat} (some_ : 0 < count) : TiedRank 9 10 count ↔ count % 20 = 6 :=
  tied_iff 5 (by decide) some_

private theorem tied_ninetyFive {count : Nat} (some_ : 0 < count) : TiedRank 19 20 count ↔ count % 40 = 31 :=
  tied_iff 10 (by decide) some_

private theorem tied_ninetyNine {count : Nat} (some_ : 0 < count) : TiedRank 99 100 count ↔ count % 200 = 151 :=
  tied_iff 50 (by decide) some_

private theorem tied_perMille {count : Nat} (some_ : 0 < count) : TiedRank 999 1000 count ↔ count % 2000 = 1501 :=
  tied_iff 500 (by decide) some_

private theorem summarize_empty (capacity : Nat) (dropped : UInt64) :
    SameFigures (LatencySamples.summarize ⟨[],capacity,dropped⟩).1 (AnalyzeLatency.summarize []) := by
  rw [LatencySamples.summarize,if_pos rfl]
  unfold AnalyzeLatency.summarize AnalyzeLatency.sorted
  rw [List.mergeSort_nil]
  exact ⟨rfl,rfl,rfl,rfl,rfl,rfl⟩

/-- For every list of samples the two summaries show the same percentiles and the same
maximum exactly if no percentile is tied between two different samples. -/
theorem summaries_agree_iff (s : LatencySamples) :
    SameFigures s.summarize.1 (AnalyzeLatency.summarize (readings s.samples)) ↔ TiesLevel s.samples := by
  by_cases none : s.samples = []
  · obtain ⟨samples,capacity,dropped⟩ := s
    dsimp only at none
    subst none
    exact iff_of_true (summarize_empty capacity dropped) (by constructor <;> simp)
  · have count : 0 < s.samples.length := List.length_pos_iff.mpr none
    have length := length_sorted s.samples
    have filled : LatencySamples.sorted s.samples ≠ [] := by
      rw [← List.length_pos_iff,length]
      exact count
    have half := percentile_agree_iff filled 1 2 (by decide) (by decide)
    have ninety := percentile_agree_iff filled 9 10 (by decide) (by decide)
    have ninetyFive := percentile_agree_iff filled 19 20 (by decide) (by decide)
    have ninetyNine := percentile_agree_iff filled 99 100 (by decide) (by decide)
    have perMille := percentile_agree_iff filled 999 1000 (by decide) (by decide)
    rw [length] at half ninety ninetyFive ninetyNine perMille
    rw [tied_half count] at half
    rw [tied_ninety count] at ninety
    rw [tied_ninetyFive count] at ninetyFive
    rw [tied_ninetyNine count] at ninetyNine
    rw [tied_perMille count] at perMille
    simp only [Nat.cast_ofNat,Nat.cast_one,one_mul] at half ninety ninetyFive ninetyNine perMille
    have last := getLastD_readings (LatencySamples.sorted s.samples)
    rw [LatencySamples.summarize,if_neg none]
    unfold AnalyzeLatency.summarize
    rw [sorted_readings]
    constructor
    · intro same
      exact ⟨half.mp same.p50,ninety.mp same.p90,ninetyFive.mp same.p95,ninetyNine.mp same.p99,
        perMille.mp same.p999⟩
    · intro level
      exact ⟨half.mpr level.half,ninety.mpr level.ninety,ninetyFive.mpr level.ninetyFive,
        ninetyNine.mpr level.ninetyNine,perMille.mpr level.perMille,last.symm⟩

/-- Of two samples the engine reports the larger as the median and the script the
smaller. -/
theorem median_differs : (LatencySamples.summarize ⟨[1,2],2,0⟩).1.p50 = 2 ∧
    (AnalyzeLatency.summarize (readings [1,2])).p50 = 1 ∧
    ¬ SameFigures (LatencySamples.summarize ⟨[1,2],2,0⟩).1 (AnalyzeLatency.summarize (readings [1,2])) := by
  have ordered : LatencySamples.sorted [1,2] = [1,2] := List.mergeSort_of_pairwise (by decide)
  have larger : LatencySamples.percentile [1,2] (1/2) = 2 := by decide +kernel
  have smaller : AnalyzeLatency.percentile (readings [1,2]) (1/2) = 1 := by decide +kernel
  have engine : (LatencySamples.summarize ⟨[1,2],2,0⟩).1.p50 = 2 := by
    rw [LatencySamples.summarize,if_neg (by decide)]
    dsimp only
    rw [ordered,larger]
  have script : (AnalyzeLatency.summarize (readings [1,2])).p50 = 1 := by
    rw [AnalyzeLatency.summarize,sorted_readings]
    dsimp only
    rw [ordered,smaller]
  refine ⟨engine,script,?_⟩
  intro same
  have equal := same.p50
  rw [engine,script] at equal
  exact absurd equal (by decide)

end Llte
