import Llte.Datagram

/-! The handler's main loop with its own variables. It ends on a signal, on an error of
`recv`, when the expected number of events is published, or when the feed has been quiet
for long enough. -/
namespace Llte
open Foundation

/-- What a call of `receive` brought. -/
inductive Returned where
  | error
  | timeout
  | empty
  | malformed
  | packet
  deriving DecidableEq

namespace Returned

/-- `receive` returned zero, which an empty datagram does as well. -/
def silent : Returned → Bool
  | timeout => true
  | empty => true
  | _ => false

/-- How many of the last calls were silent. -/
def quiet (log : List Returned) : Nat := (log.reverse.takeWhile silent).length

private theorem quiet_silent (log : List Returned) {returned : Returned} (silent_ : returned.silent = true) :
    quiet (log ++ [returned]) = quiet log+1 := by
  simp [quiet,silent_]

private theorem quiet_loud (log : List Returned) {returned : Returned} (loud : returned.silent = false) :
    quiet (log ++ [returned]) = 0 := by
  simp [quiet,loud]

end Returned

/-- The handler with the variables of `main`; `t2Enqueue` is the time in the event that
is being pushed, and `log` what the calls of `receive` returned. -/
structure HandlerMain (cap : Capacity) (p : PowerOfTwo) (σ : Type) where
  handler : FeedHandler cap p σ
  idleElapsedMs : ℤ := 0
  t2Enqueue : UInt64 := 0
  firstMessageNs : UInt64 := 0
  lastMessageNs : UInt64 := 0
  queueFullSpins : UInt64 := 0
  log : List Returned := []

inductive HandlerMove where
  | signal
  | callPop
  | pop
  | run (clock : UInt64)
  | recvError
  | timeout
  | datagram (fuel : Nat) (t0Recv t1Parsed : UInt64) (bytes : List UInt8)

/-- The options of the command line. -/
structure HandlerOptions where
  expect : UInt64 := 0
  idleMs : ℤ := 1500

namespace HandlerMain
variable {cap : Capacity} {p : PowerOfTwo} {σ : Type}

def create (cap : Capacity) (p : PowerOfTwo) (origin : UInt64) (c₀ : σ) (packet : PacketBuffer) :
    HandlerMain cap p σ where
  handler := .create cap p origin c₀ packet

def control (s : HandlerMain cap p σ) : Control := s.handler.process.control

/-- Whether a silent call ends the loop. The countdown starts with the first event. -/
def idles (options : HandlerOptions) (s : HandlerMain cap p σ) : Bool :=
  s.firstMessageNs ≠ 0 ∧ options.idleMs ≤ s.idleElapsedMs+50

/-- The variables after `receive` has returned. -/
def received (s : HandlerMain cap p σ) (handler : FeedHandler cap p σ) (returned : Returned) :
    HandlerMain cap p σ where
  handler := handler
  idleElapsedMs :=
    if returned = .error then s.idleElapsedMs
    else if returned.silent then if s.firstMessageNs ≠ 0 then s.idleElapsedMs+50 else s.idleElapsedMs
    else 0
  t2Enqueue := s.t2Enqueue
  firstMessageNs := s.firstMessageNs
  lastMessageNs := s.lastMessageNs
  queueFullSpins := s.queueFullSpins
  log := s.log ++ [returned]

/-- The event is out of the push loop, pushed or given up. -/
def publish (s : HandlerMain cap p σ) : HandlerMain cap p σ :=
  {s with
    firstMessageNs := if s.firstMessageNs = 0 then s.t2Enqueue else s.firstMessageNs
    lastMessageNs := s.t2Enqueue}

/-- The variables after a step of the drain loop. -/
def noted (s : HandlerMain cap p σ) (clock : UInt64) (process : HandlerProcess cap p σ) : HandlerMain cap p σ :=
  let s' := {s with handler := {s.handler with process := process}}
  match s.control,process.control with
  | .drain,.push _ => {s' with t2Enqueue := clock}
  | .retry _,.push _ => {s' with t2Enqueue := clock, queueFullSpins := s.queueFullSpins+1}
  | .push _,.drain => s'.publish
  | .retry _,.drain => s'.publish
  | _,_ => s'

/-- What the loop made of a datagram. -/
def kind (s : HandlerMain cap p σ) (bytes : List UInt8) : Returned :=
  match s.handler.inspected bytes with
  | .nothing => .empty
  | .malformed => .malformed
  | .packet _ => .packet

/-- A step of the process that the variables do not see. -/
def beside (client : Option (Client σ)) (options : HandlerOptions) (s : HandlerMain cap p σ) (m : Move) :
    Option (HandlerMain cap p σ) :=
  (s.handler.process.move client options.expect m).map fun process =>
    {s with handler := {s.handler with process := process}}

/-- `receive` returned without a datagram. -/
def brought (client : Option (Client σ)) (options : HandlerOptions) (s : HandlerMain cap p σ) (reception : Reception)
    (returned : Returned) : Option (HandlerMain cap p σ) :=
  (s.handler.process.move client options.expect (.receive reception)).map fun process =>
    s.received {s.handler with process := process} returned

def move (client : Option (Client σ)) (options : HandlerOptions) (s : HandlerMain cap p σ) :
    HandlerMove → Option (HandlerMain cap p σ)
  | .signal => s.beside client options .signal
  | .callPop => s.beside client options .callPop
  | .pop => s.beside client options .pop
  | .run clock => (s.handler.process.run options.expect clock).map (s.noted clock)
  | .recvError => s.brought client options .error .error
  | .timeout => s.brought client options (.nothing (s.idles options)) .timeout
  | .datagram fuel t0Recv t1Parsed bytes =>
    match s.control with
    | .receive =>
      (s.handler.takeDatagram client (s.idles options) fuel t0Recv t1Parsed bytes).map fun (_,handler) =>
        s.received handler (s.kind bytes)
    | _ => none

end HandlerMain

/-- Between a packet and the next call of `receive`. -/
def Control.busy : Control → Bool
  | .drain => true
  | .push _ => true
  | .retry _ => true
  | .store => true
  | _ => false

/-- The loop has been left. -/
def Control.ended : Control → Bool
  | .finish => true
  | .done => true
  | _ => false

namespace HandlerMain
variable {cap : Capacity} {p : PowerOfTwo} {σ : Type} {s s' : HandlerMain cap p σ} {options : HandlerOptions}
  {client : Option (Client σ)}
open Returned (quiet)

/-- The feed has begun and has been silent for as long as the options say. -/
def Quiet (options : HandlerOptions) (s : HandlerMain cap p σ) : Prop :=
  s.firstMessageNs ≠ 0 ∧ 0 < quiet s.log ∧ options.idleMs ≤ 50*quiet s.log

/-- The other reasons to leave the loop. -/
def Called (options : HandlerOptions) (s : HandlerMain cap p σ) : Prop :=
  s.handler.process.stop = true ∨ .error ∈ s.log ∨
    (0 < options.expect ∧ options.expect ≤ s.handler.process.published)

structure Watches (options : HandlerOptions) (s : HandlerMain cap p σ) : Prop where
  elapsed : .error ∉ s.log → s.idleElapsedMs = if s.firstMessageNs = 0 then (0 : ℤ) else 50*(quiet s.log : ℤ)
  steps : ∃ k : Nat, s.idleElapsedMs = 50*k ∧ (k ≤ 1 ∨ 50*(k-1) < options.idleMs)
  busy : s.control.busy = true → quiet s.log = 0
  ended : s.control.ended = true → s.Called options ∨ s.Quiet options
  awake : s.control.ended = false → .error ∉ s.log ∧ ¬ s.Quiet options
  flight : s.control.inFlight.length ≤ s.handler.process.handed.length
  begun : s.firstMessageNs ≠ 0 → s.control.inFlight.length < s.handler.process.handed.length
  packets : s.handler.packetsReceived = UInt64.ofNat (s.log.count .malformed + s.log.count .packet)
  malformed : s.handler.malformedPackets = UInt64.ofNat (s.log.count .malformed)

namespace Watches

theorem create (options : HandlerOptions) (cap : Capacity) (p : PowerOfTwo) (origin : UInt64) (c₀ : σ)
    (packet : PacketBuffer) : Watches options (create cap p origin c₀ packet) where
  elapsed := fun _ => rfl
  steps := ⟨0,rfl,.inl (Nat.zero_le 1)⟩
  busy := by simp [HandlerMain.create,control,FeedHandler.create,HandlerProcess.create,Control.busy]
  ended := by simp [HandlerMain.create,control,FeedHandler.create,HandlerProcess.create,Control.ended]
  awake := by simp [HandlerMain.create,Quiet]
  flight := Nat.le_refl 0
  begun := by simp [HandlerMain.create]
  packets := rfl
  malformed := rfl

/-- A step outside of `receive`. Only the end of a push loop touches `firstMessageNs`, and
then the last call was not silent. -/
theorem goes (watches : Watches options s) (log : s'.log = s.log) (idle : s'.idleElapsedMs = s.idleElapsedMs)
    (packets : s'.handler.packetsReceived = s.handler.packetsReceived)
    (malformed : s'.handler.malformedPackets = s.handler.malformedPackets)
    (first : s'.firstMessageNs = s.firstMessageNs ∨ quiet s.log = 0)
    (busy : s'.control.busy = true → quiet s.log = 0)
    (ended : s'.control.ended = true → s'.Called options ∨ s'.Quiet options)
    (awake : s'.control.ended = false → s.control.ended = false)
    (flight : s'.control.inFlight.length ≤ s'.handler.process.handed.length)
    (begun : s'.firstMessageNs ≠ 0 → s'.control.inFlight.length < s'.handler.process.handed.length) :
    Watches options s' := by
  refine ⟨?_,?_,?_,ended,?_,flight,begun,?_,?_⟩
  · rw [log,idle]
    intro fine
    rw [watches.elapsed fine]
    rcases first with same | none
    · rw [same]
    · simp [none]
  · rw [idle]
    exact watches.steps
  · rw [log]
    exact busy
  · intro on
    obtain ⟨fine,quiet⟩ := watches.awake (awake on)
    rw [Quiet,log]
    refine ⟨fine,?_⟩
    rcases first with same | none
    · rw [same]
      exact quiet
    · simp [none]
  · rw [packets,log]
    exact watches.packets
  · rw [malformed,log]
    exact watches.malformed

theorem handed (watches : Watches options s) (begun : s.firstMessageNs ≠ 0) :
    0 < s.handler.process.handed.length :=
  Nat.lt_of_le_of_lt (Nat.zero_le _) (watches.begun begun)

end Watches

/-- What is the same after a step of the drain loop. -/
structure Noted (s s' : HandlerMain cap p σ) : Prop where
  log : s'.log = s.log
  idle : s'.idleElapsedMs = s.idleElapsedMs
  packets : s'.handler.packetsReceived = s.handler.packetsReceived
  malformed : s'.handler.malformedPackets = s.handler.malformedPackets
  first : s'.control ≠ .drain → s'.firstMessageNs = s.firstMessageNs

private theorem noted_noted (s : HandlerMain cap p σ) (clock : UInt64) (process : HandlerProcess cap p σ) :
    (s.noted clock process).handler.process = process ∧ Noted s (s.noted clock process) := by
  unfold noted
  dsimp only
  split
  next => exact ⟨rfl,rfl,rfl,rfl,rfl,fun _ => rfl⟩
  next => exact ⟨rfl,rfl,rfl,rfl,rfl,fun _ => rfl⟩
  next _ _ _ drain => exact ⟨rfl,rfl,rfl,rfl,rfl,fun other => absurd drain other⟩
  next _ _ _ drain => exact ⟨rfl,rfl,rfl,rfl,rfl,fun other => absurd drain other⟩
  next => exact ⟨rfl,rfl,rfl,rfl,rfl,fun _ => rfl⟩

theorem Called.later (called : s.Called options) (log : s'.log = s.log)
    (stop : s.handler.process.stop = true → s'.handler.process.stop = true)
    (published : s'.handler.process.published = s.handler.process.published) : s'.Called options := by
  rw [Called,log,published]
  exact called.imp_left stop

private theorem busy_not_ended {control : Control} (busy : control.busy = true) : control.ended = false := by
  cases control <;> first | rfl | simp [Control.busy] at busy

namespace Watches

/-- A step of the drain loop that lets no event out of the push loop. -/
private theorem stays (watches : Watches options s) (noted : Noted s s') (other : s'.control ≠ .drain)
    (left : s.handler.process.handed.length+s'.control.inFlight.length ≤
      s'.handler.process.handed.length+s.control.inFlight.length)
    (busy : s'.control.busy = true → quiet s.log = 0)
    (ended : s'.control.ended = true → s'.Called options ∨ s'.Quiet options)
    (awake : s'.control.ended = false → s.control.ended = false) : Watches options s' := by
  have flight := watches.flight
  have kept := noted.first other
  refine watches.goes noted.log noted.idle noted.packets noted.malformed (.inl kept) busy ended awake (by omega) ?_
  rw [kept]
  intro some_
  have begun := watches.begun some_
  omega

/-- The loop works on the same packet after the step. -/
private theorem works (watches : Watches options s) (noted : Noted s s') (before : s.control.busy = true)
    (after : s'.control.busy = true) (other : s'.control ≠ .drain)
    (left : s.handler.process.handed.length+s'.control.inFlight.length ≤
      s'.handler.process.handed.length+s.control.inFlight.length) : Watches options s' :=
  watches.stays noted other left (fun _ => watches.busy before) (by simp [busy_not_ended after])
    (fun _ => busy_not_ended before)

/-- A test of the main loop: it is left for one of the called reasons, or goes on to the
next call of `receive`. -/
private theorem tests {leave : Prop} [Decidable leave] {on : Control} (watches : Watches options s) (noted : Noted s s')
    (before : s.control.ended = false) (there : s'.control = if leave then .finish else on)
    (next : on = .top ∨ on = .receive) (called : leave → s'.Called options)
    (handed : s'.handler.process.handed = s.handler.process.handed) : Watches options s' := by
  have after : s'.control.inFlight.length = 0 ∧ s'.control ≠ .drain ∧ s'.control.busy = false ∧
      (s'.control.ended = true → leave) := by
    rw [there]
    split
    next left => exact ⟨rfl,by simp,rfl,fun _ => left⟩
    next => rcases next with rfl | rfl <;> exact ⟨rfl,by simp,rfl,by simp [Control.ended]⟩
  obtain ⟨empty,other,idle,leaves⟩ := after
  refine watches.stays noted other ?_ (by simp [idle]) (fun ended => .inl (called (leaves ended))) (fun _ => before)
  rw [handed]
  omega

/-- An event leaves the push loop, pushed or given up. -/
private theorem leaves {out : FeedMessage} (watches : Watches options s) (noted : Noted s s')
    (here : s.control = .push out ∨ s.control = .retry out) (there : s'.control = .drain)
    (handed : s'.handler.process.handed = s.handler.process.handed) : Watches options s' := by
  have before : s.control.busy = true ∧ s.control.inFlight.length = 1 := by
    rcases here with here | here <;> (rw [here]; exact ⟨rfl,rfl⟩)
  have none := watches.busy before.1
  have flight := watches.flight
  have after : s'.control.inFlight.length = 0 := by rw [there]; rfl
  refine watches.goes noted.log noted.idle noted.packets noted.malformed (.inr none) (fun _ => none)
    (by simp [there,Control.ended]) (fun _ => busy_not_ended before.1) ?_ (fun _ => ?_)
  · omega
  · rw [handed]
    omega

/-- The loop has been left, and the last store is made. -/
private theorem finishes (watches : Watches options s) (noted : Noted s s') (here : s.control = .finish)
    (there : s'.control = .done) (stop : s'.handler.process.stop = s.handler.process.stop)
    (published : s'.handler.process.published = s.handler.process.published)
    (handed : s'.handler.process.handed = s.handler.process.handed) : Watches options s' := by
  refine watches.stays noted (by simp [there]) ?_ (by simp [there,Control.busy]) (fun _ => ?_)
    (by simp [there,Control.ended])
  · rw [there,handed]
    exact Nat.le_add_right _ _
  · rcases watches.ended (by rw [here]; rfl) with called | quiet
    · exact .inl (called.later noted.log (by rw [stop]; exact id) published)
    · right
      rw [Quiet,noted.log,noted.first (by simp [there])]
      exact quiet

theorem ran {clock : UInt64} {process : HandlerProcess cap p σ} (watches : Watches options s)
    (ran : HandlerProcess.Ran options.expect clock s.handler.process process) :
    Watches options (s.noted clock process) := by
  obtain ⟨same,noted⟩ := noted_noted s clock process
  generalize s.noted clock process = s' at same noted ⊢
  cases ran with
  | top here =>
    exact watches.tests noted (by rw [control,here]; rfl) (by rw [control,same]) (.inr rfl)
      (fun stopped => .inl (by rw [same]; exact stopped)) (by rw [same])
  | drained sequencer here nothing =>
    have there : s'.control = .store := by rw [control,same]
    refine watches.works noted (by rw [control,here]; rfl) (by rw [there]; rfl) (by simp [there]) ?_
    rw [there,same]
    exact Nat.le_add_right _ _
  | hands out sequencer here delivered =>
    have there : s'.control = .push out := by rw [control,same]; rfl
    refine watches.works noted (by rw [control,here]; rfl) (by rw [there]; rfl) (by simp [there]) ?_
    rw [there,same]
    change _ ≤ (s.handler.process.handed ++ [out]).length+_
    rw [List.length_append]
    exact Nat.le_add_right _ _
  | pushing out phase next here running stays =>
    have there : s'.control = .push out := by rw [control,same]; exact here
    refine watches.works noted (by rw [control,here]; rfl) (by rw [there]; rfl) (by simp [there]) ?_
    rw [there,same,control,here]
  | pushed out phase here running accepted =>
    exact watches.leaves noted (.inl here) (by rw [control,same]) (by rw [same])
  | refused out phase here running full =>
    have there : s'.control = .retry out := by rw [control,same]
    refine watches.works noted (by rw [control,here]; rfl) (by rw [there]; rfl) (by simp [there]) ?_
    rw [there,same,control,here]
    exact Nat.le_refl _
  | givenUp out here stopped => exact watches.leaves noted (.inr here) (by rw [control,same]) (by rw [same])
  | again out here goes =>
    have there : s'.control = .push out := by rw [control,same]; rfl
    refine watches.works noted (by rw [control,here]; rfl) (by rw [there]; rfl) (by simp [there]) ?_
    rw [there,same,control,here]
    exact Nat.le_refl _
  | stored here =>
    exact watches.tests noted (by rw [control,here]; rfl) (by rw [control,same]) (.inl rfl)
      (fun reached => .inr (.inr (by rw [same]; exact reached))) (by rw [same])
  | finished here =>
    exact watches.finishes noted here (by rw [control,same]) (by rw [same]) (by rw [same]) (by rw [same])

end Watches

/-- A step of the consumer, or the signal. -/
theorem Watches.calm {process : HandlerProcess cap p σ} (watches : Watches options s)
    (control_ : process.control = s.control) (published : process.published = s.handler.process.published)
    (handed : process.handed = s.handler.process.handed)
    (stop : s.handler.process.stop = true → process.stop = true) :
    Watches options {s with handler := {s.handler with process := process}} := by
  refine watches.goes rfl rfl rfl rfl (.inl rfl) ?_ ?_ ?_ ?_ ?_
  · rw [control,control_]
    exact watches.busy
  · rw [control,control_]
    intro ended
    exact (watches.ended ended).imp (fun called => called.later rfl stop published) id
  · rw [control,control_]
    exact id
  · rw [control,control_,handed]
    exact watches.flight
  · rw [control,control_,handed]
    exact watches.begun

section Silent
variable {handler : FeedHandler cap p σ} {returned : Returned}

/-- The countdown after one more silent call. -/
theorem Watches.longer (watches : Watches options s) (fine : .error ∉ s.log) (silent : returned.silent = true) :
    (s.received handler returned).idleElapsedMs =
      if s.firstMessageNs = 0 then 0 else 50*((quiet s.log+1 : Nat) : ℤ) := by
  have sound : returned ≠ .error := by
    rintro rfl
    simp [Returned.silent] at silent
  simp only [received,if_neg sound,if_pos silent,watches.elapsed fine]
  by_cases none : s.firstMessageNs = 0
  · rw [if_neg (not_not.mpr none),if_pos none,if_pos none]
  · rw [if_pos none,if_neg none,if_neg none,Nat.cast_add,mul_add,Nat.cast_one,mul_one]

private theorem Watches.idles_iff (watches : Watches options s) (fine : .error ∉ s.log) (silent : returned.silent = true) :
    s.idles options = true ↔ (s.received handler returned).Quiet options := by
  simp only [idles,Quiet,received,Returned.quiet_silent s.log silent,watches.elapsed fine,decide_eq_true_eq]
  constructor
  · rintro ⟨begun,enough⟩
    rw [if_neg begun] at enough
    refine ⟨begun,Nat.succ_pos _,?_⟩
    push_cast
    omega
  · rintro ⟨begun,_,enough⟩
    rw [if_neg begun]
    push_cast at enough
    exact ⟨begun,by omega⟩

/-- `receive` returned zero. -/
theorem Watches.silent (watches : Watches options s) (here : s.control = .receive) (silent : returned.silent = true)
    (there : handler.process.control = if s.idles options then .finish else .top)
    (handed : handler.process.handed = s.handler.process.handed)
    (packets : handler.packetsReceived = s.handler.packetsReceived)
    (malformed : handler.malformedPackets = s.handler.malformedPackets) :
    Watches options (s.received handler returned) := by
  obtain ⟨fine,awake⟩ := watches.awake (by rw [here]; rfl)
  have elapsed : (s.received handler returned).idleElapsedMs = _ := watches.longer fine silent
  have idles_iff : _ ↔ (s.received handler returned).Quiet options := watches.idles_iff fine silent
  have later : (s.received handler returned).control = if s.idles options then .finish else .top := there
  have outside : (s.received handler returned).control.inFlight.length = 0 := by
    rw [later]
    split <;> rfl
  refine ⟨?_,?_,?_,?_,?_,?_,?_,?_,?_⟩
  · intro _
    rw [elapsed]
    simp only [received,Returned.quiet_silent s.log silent]
  · rw [elapsed]
    split
    next => exact ⟨0,rfl,.inl (Nat.zero_le 1)⟩
    next begun =>
      refine ⟨quiet s.log+1,rfl,?_⟩
      have short : ¬ (0 < quiet s.log ∧ options.idleMs ≤ 50*quiet s.log) := fun both => awake ⟨begun,both⟩
      push_cast
      omega
  · rw [later]
    split <;> simp [Control.busy]
  · rw [later]
    split
    next idle => exact fun _ => .inr (idles_iff.mp idle)
    next => simp [Control.ended]
  · rw [later]
    split
    next => simp [Control.ended]
    next idle =>
      refine fun _ => ⟨?_,fun quiet => idle (idles_iff.mpr quiet)⟩
      change .error ∉ s.log ++ [returned]
      cases returned <;> simp_all [Returned.silent]
  · rw [outside]
    exact Nat.zero_le _
  · rw [outside]
    change s.firstMessageNs ≠ 0 → 0 < handler.process.handed.length
    rw [handed]
    exact watches.handed
  · change handler.packetsReceived = UInt64.ofNat
      ((s.log ++ [returned]).count .malformed + (s.log ++ [returned]).count .packet)
    rw [packets,watches.packets]
    cases returned <;> simp_all [Returned.silent]
  · change handler.malformedPackets = UInt64.ofNat ((s.log ++ [returned]).count .malformed)
    rw [malformed,watches.malformed]
    cases returned <;> simp_all [Returned.silent]

end Silent

/-- `receive` failed. -/
theorem Watches.failed {handler : FeedHandler cap p σ} (watches : Watches options s)
    (there : handler.process.control = .finish)
    (handed : handler.process.handed = s.handler.process.handed)
    (packets : handler.packetsReceived = s.handler.packetsReceived)
    (malformed : handler.malformedPackets = s.handler.malformedPackets) :
    Watches options (s.received handler .error) := by
  have later : (s.received handler .error).control = .finish := there
  have failed : .error ∈ (s.received handler .error).log := by simp [received]
  have outside : (s.received handler .error).control.inFlight.length = 0 := by rw [later]; rfl
  refine ⟨fun fine => absurd failed fine,watches.steps,?_,fun _ => .inl (.inr (.inl failed)),?_,?_,?_,?_,?_⟩
  · simp [later,Control.busy]
  · simp [later,Control.ended]
  · rw [outside]
    exact Nat.zero_le _
  · rw [outside]
    change s.firstMessageNs ≠ 0 → 0 < handler.process.handed.length
    rw [handed]
    exact watches.handed
  · simp [received,packets,watches.packets]
  · simp [received,malformed,watches.malformed]

/-- A datagram came. -/
theorem Watches.loud {handler : FeedHandler cap p σ} {returned : Returned} (watches : Watches options s)
    (here : s.control = .receive) (loud : returned = .malformed ∨ returned = .packet)
    (there : handler.process.control = if returned = .packet then .drain else .top)
    (handed : handler.process.handed = s.handler.process.handed)
    (packets : handler.packetsReceived = s.handler.packetsReceived+1)
    (malformed : handler.malformedPackets =
      if returned = .packet then s.handler.malformedPackets else s.handler.malformedPackets+1) :
    Watches options (s.received handler returned) := by
  have fine := (watches.awake (by rw [here]; rfl)).1
  have silence : quiet (s.received handler returned).log = 0 :=
    Returned.quiet_loud s.log (by rcases loud with rfl | rfl <;> rfl)
  have reset : (s.received handler returned).idleElapsedMs = 0 := by
    rcases loud with rfl | rfl <;> rfl
  have outside : (s.received handler returned).control.inFlight.length = 0 := by
    rw [control,received]
    rw [there]
    split <;> rfl
  refine ⟨?_,⟨0,reset,.inl (Nat.zero_le 1)⟩,fun _ => silence,?_,?_,?_,?_,?_,?_⟩
  · intro _
    rw [reset,silence]
    simp
  · rw [control,received]
    rw [there]
    split <;> simp [Control.ended]
  · refine fun _ => ⟨?_,fun quiet => ?_⟩
    · rcases loud with rfl | rfl <;> simpa [received] using fine
    · simp [Quiet,silence] at quiet
  · rw [outside]
    exact Nat.zero_le _
  · rw [outside]
    change s.firstMessageNs ≠ 0 → 0 < handler.process.handed.length
    rw [handed]
    exact watches.handed
  · have one (n : Nat) : UInt64.ofNat (n+1) = UInt64.ofNat n+1 := UInt64.ofNat_add n 1
    rw [received,packets,watches.packets,← one]
    rcases loud with rfl | rfl
    · simp [Nat.add_right_comm]
    · simp [Nat.add_assoc]
  · rw [received,malformed,watches.malformed]
    rcases loud with rfl | rfl
    · simp
    · simp

theorem Watches.datagram {fuel : Nat} {t0Recv t1Parsed : UInt64} {bytes : List UInt8}
    {calls : List (SequenceManager.Call cap)} {handler : FeedHandler cap p σ} (watches : Watches options s)
    (here : s.control = .receive)
    (taken : s.handler.takeDatagram client (s.idles options) fuel t0Recv t1Parsed bytes = some (calls,handler)) :
    Watches options (s.received handler (s.kind bytes)) := by
  rw [FeedHandler.takeDatagram] at taken
  rw [kind]
  dsimp only at taken
  cases seen : s.handler.inspected bytes with
  | nothing =>
    simp only [seen,Option.some.injEq,Prod.mk.injEq] at taken
    obtain ⟨_,rfl⟩ := taken
    exact watches.silent here rfl rfl rfl rfl rfl
  | malformed =>
    simp only [seen,Option.some.injEq,Prod.mk.injEq] at taken
    obtain ⟨_,rfl⟩ := taken
    exact watches.loud here (.inl rfl) rfl rfl rfl rfl
  | packet messages =>
    simp only [seen] at taken
    split at taken
    next => simp at taken
    next =>
      simp only [Option.some.injEq,Prod.mk.injEq] at taken
      obtain ⟨_,rfl⟩ := taken
      exact watches.loud here (.inr rfl) rfl rfl rfl rfl

private theorem move_watches {m : HandlerMove} (watches : Watches options s) (taken : s.move client options m = some s') :
    Watches options s' := by
  cases m with
  | signal =>
    cases taken
    exact watches.calm rfl rfl rfl (fun _ => rfl)
  | callPop =>
    obtain ⟨process,moved,rfl⟩ := Option.map_eq_some_iff.mp taken
    simp only [HandlerProcess.move] at moved
    split at moved
    next =>
      cases moved
      exact watches.calm rfl rfl rfl id
    next => simp at moved
  | pop =>
    obtain ⟨process,moved,rfl⟩ := Option.map_eq_some_iff.mp taken
    simp only [HandlerProcess.move] at moved
    split at moved
    next => simp at moved
    next =>
      cases moved
      exact watches.calm rfl rfl rfl id
  | run clock =>
    obtain ⟨process,moved,rfl⟩ := Option.map_eq_some_iff.mp taken
    exact watches.ran (HandlerProcess.run_ran moved)
  | recvError =>
    obtain ⟨process,moved,rfl⟩ := Option.map_eq_some_iff.mp taken
    simp only [HandlerProcess.move] at moved
    split at moved
    next =>
      cases moved
      exact watches.failed rfl rfl rfl rfl
    next => simp at moved
  | timeout =>
    obtain ⟨process,moved,rfl⟩ := Option.map_eq_some_iff.mp taken
    simp only [HandlerProcess.move] at moved
    split at moved
    next here =>
      cases moved
      exact watches.silent here rfl rfl rfl rfl rfl
    next => simp at moved
  | datagram fuel t0Recv t1Parsed bytes =>
    simp only [move] at taken
    split at taken
    next here =>
      obtain ⟨⟨calls,handler⟩,moved,rfl⟩ := Option.map_eq_some_iff.mp taken
      exact watches.datagram here moved
    next => simp at taken

/-- The handler's loop, whatever arrives and however the consumer and the signal come in.
Without a signal, an error or enough events it has ended exactly if the feed had begun and
the last calls of `receive` were silent for the time of the option, at 50 ms a call; an
empty datagram is such a call. The variable that counts the time fits an `int` up to an
option of 2147483600 ms. -/
theorem handler_ends_iff (client : Option (Client σ)) (options : HandlerOptions) (origin : UInt64) (c₀ : σ)
    (packet : PacketBuffer) (s : HandlerMain cap p σ)
    (reached : Reached (move client options) (create cap p origin c₀ packet) s) :
    (¬ s.Called options → (s.control.ended = true ↔ s.Quiet options)) ∧
      (s.firstMessageNs ≠ 0 → s.control.inFlight.length < s.handler.process.handed.length) ∧
      s.handler.packetsReceived = UInt64.ofNat (s.log.count .malformed + s.log.count .packet) ∧
      s.handler.malformedPackets = UInt64.ofNat (s.log.count .malformed) ∧
      (options.idleMs ≤ 2147483600 → 0 ≤ s.idleElapsedMs ∧ s.idleElapsedMs < 2^31) := by
  have watches : Watches options s := reached.invariant (.create options cap p origin c₀ packet)
    fun _ _ _ watches taken => move_watches watches taken
  refine ⟨?_,watches.begun,watches.packets,watches.malformed,?_⟩
  · intro free
    constructor
    · intro ended
      exact (watches.ended ended).resolve_left free
    · intro quiet
      rw [← Bool.not_eq_false]
      intro on
      exact (watches.awake on).2 quiet
  · intro small
    obtain ⟨k,elapsed,few⟩ := watches.steps
    rw [elapsed]
    omega

/-- A packet of one message, then a timeout and an empty datagram. -/
def oneThenQuiet : List HandlerMove :=
  [.run 1,.datagram 1 1 1 ((FeedPacketHeader.mk kFeedMagic 1 0).bytes ++ MarketMessage.bytes 0 {sequenceNumber := 1}),
    .run 1,.run 1,.run 1,.run 1,.run 1,.run 1,.run 1,.timeout,.run 1,.datagram 1 1 1 []]

theorem handler_ends_quiet : ∃ s : HandlerMain SequenceManager.four HandlerProcess.one Unit,
    Reached (move none ⟨0,100⟩) (create SequenceManager.four HandlerProcess.one 0 () .zero) s ∧
      s.control.ended = true ∧ s.Quiet ⟨0,100⟩ := by
  obtain ⟨s,reached,ended,stop,log⟩ := play_finds (move (none : Option (Client Unit)) ⟨0,100⟩)
    (create SequenceManager.four HandlerProcess.one 0 () .zero) oneThenQuiet
    (fun s => s.control.ended = true ∧ s.handler.process.stop = false ∧ .error ∉ s.log) (by decide +kernel)
  have free : ¬ s.Called ⟨0,100⟩ := by
    rintro (stopped | failed | enough)
    · simp [stop] at stopped
    · exact log failed
    · exact absurd enough.1 (Nat.lt_irrefl 0)
  exact ⟨s,reached,ended,((handler_ends_iff none ⟨0,100⟩ 0 () .zero s reached).1 free).mp ended⟩

/-- The step of the handler process in a step of the loop. -/
def processMove (options : HandlerOptions) (s : HandlerMain cap p σ) : HandlerMove → Move
  | .signal => .signal
  | .callPop => .callPop
  | .pop => .pop
  | .run clock => .run clock
  | .recvError => .receive .error
  | .timeout => .receive (.nothing (s.idles options))
  | .datagram fuel t0Recv t1Parsed bytes => .receive (s.handler.reception (s.idles options) fuel t0Recv t1Parsed bytes)

theorem move_process {m : HandlerMove} (taken : s.move client options m = some s') :
    s.handler.process.move client options.expect (s.processMove options m) = some s'.handler.process := by
  cases m with
  | signal =>
    cases taken
    rfl
  | callPop =>
    obtain ⟨process,moved,rfl⟩ := Option.map_eq_some_iff.mp taken
    exact moved
  | pop =>
    obtain ⟨process,moved,rfl⟩ := Option.map_eq_some_iff.mp taken
    exact moved
  | run clock =>
    obtain ⟨process,moved,rfl⟩ := Option.map_eq_some_iff.mp taken
    rw [(noted_noted s clock process).1]
    exact moved
  | recvError =>
    obtain ⟨process,moved,rfl⟩ := Option.map_eq_some_iff.mp taken
    exact moved
  | timeout =>
    obtain ⟨process,moved,rfl⟩ := Option.map_eq_some_iff.mp taken
    exact moved
  | datagram fuel t0Recv t1Parsed bytes =>
    simp only [move] at taken
    split at taken
    next here =>
      obtain ⟨⟨calls,handler⟩,moved,rfl⟩ := Option.map_eq_some_iff.mp taken
      have there : s.handler.process.control = .receive := here
      simp only [processMove,HandlerProcess.move,there]
      exact FeedHandler.takeDatagram_receives moved
    next => simp at taken

/-- A step that tests the push loop after a failed push and finds `g_stop` set. -/
def GivesUp (s : HandlerMain cap p σ) : HandlerMove → Prop
  | .run _ => s.handler.process.stop = true ∧ s.control.retries = true
  | _ => False

instance (s : HandlerMain cap p σ) : (m : HandlerMove) → Decidable (s.GivesUp m)
  | .run _ => inferInstanceAs (Decidable (_ ∧ _))
  | .signal | .callPop | .pop | .recvError | .timeout | .datagram .. => isFalse id

private theorem tidy_move {lost : Nat} {m : HandlerMove} (tidy : HandlerProcess.Tidy lost s.handler.process)
    (taken : s.move client options m = some s') :
    s.GivesUp m ∧ HandlerProcess.Tidy (lost+1) s'.handler.process ∨
      ¬s.GivesUp m ∧ HandlerProcess.Tidy lost s'.handler.process := by
  have same : s.handler.process.GivesUp (s.processMove options m) ↔ s.GivesUp m := by cases m <;> exact Iff.rfl
  rw [← same]
  exact tidy.move (move_process taken)

/-- The handler against a consumer and a signal that come in anywhere, on any datagrams. The
events in the ring are a prefix of the messages that `next_deliverable` handed out, as long
as no step of the run has given an event up. At the end of a run the stream and its count
are both right exactly if no step did and the count has not wrapped. -/
theorem published_stream_iff (client : Option (Client σ)) (options : HandlerOptions) (origin : UInt64) (c₀ : σ)
    (packet : PacketBuffer) (moves : List HandlerMove) (s : HandlerMain cap p σ)
    (played : play (move client options) moves (create cap p origin c₀ packet) = some s) :
    (Avoids (move client options) GivesUp moves (create cap p origin c₀ packet) →
      s.handler.process.ring.published.map PipelineEvent.source <+: s.handler.process.handed) ∧
      (s.control = .done →
        ((s.handler.process.ring.published.map PipelineEvent.source <+: s.handler.process.handed ∧
          s.handler.process.producedCount.toNat = s.handler.process.ring.published.length) ↔
          Avoids (move client options) GivesUp moves (create cap p origin c₀ packet) ∧
            s.handler.process.ring.published.length < 2^64)) := by
  obtain ⟨lost,tidy,none⟩ := play_tally (I := fun lost s => HandlerProcess.Tidy lost s.handler.process)
    played (HandlerProcess.Tidy.create cap p origin c₀)
    fun lost s m s' tidy taken => tidy_move tidy taken
  rw [and_iff_right rfl] at none
  refine ⟨fun kept => ?_,fun finished => ?_⟩
  · rw [tidy.stream (none.mpr kept)]
    exact List.prefix_append _ _
  · rw [tidy.whole_iff finished,none]

/-- A packet with the messages 1, 2 and 3 arrives and message 1 is pushed; the ring of one
event is then full for message 2. -/
def untilFull : List HandlerMove :=
  [.run 0,.datagram 1 0 0 ((FeedPacketHeader.mk kFeedMagic 3 0).bytes ++ MarketMessage.bytes 0 {sequenceNumber := 1} ++
      MarketMessage.bytes 0 {sequenceNumber := 2} ++ MarketMessage.bytes 0 {sequenceNumber := 3}),
    .run 0,.run 0,.run 0,.run 0,.run 0,.run 0,.run 0]

def consume : List HandlerMove := [.callPop,.pop,.pop,.pop,.pop]

/-- Without a signal the handler tries again until the consumer has made room. -/
def patientRun : List HandlerMove :=
  untilFull ++ consume ++ [.run 0,.run 0,.run 0,.run 0,.run 0,.run 0] ++ consume ++
    [.run 0,.run 0,.run 0,.run 0,.run 0,.run 0,.signal,.run 0,.run 0]

/-- The signal arrives while message 2 waits, and room only after it was given up. -/
def tornRun : List HandlerMove :=
  untilFull ++ [.signal,.run 0] ++ consume ++ [.run 0,.run 0,.run 0,.run 0,.run 0,.run 0,.run 0,.run 0,.run 0]

def oneSlot : HandlerMain SequenceManager.four HandlerProcess.one Unit :=
  create SequenceManager.four HandlerProcess.one 0 () .zero

theorem published_stream_whole : ∃ s, play (move none {}) patientRun oneSlot = some s ∧ s.control = .done ∧
    s.handler.process.stop = true ∧ s.handler.process.handed.map FeedMessage.sequence = [1,2,3] ∧
    s.handler.process.ring.published.map PipelineEvent.source <+: s.handler.process.handed ∧
    s.handler.process.producedCount.toNat = s.handler.process.ring.published.length := by
  have checked : (play (move none {}) patientRun oneSlot).any
      (fun s => s.control = .done ∧ s.handler.process.stop = true ∧
        s.handler.process.handed.map FeedMessage.sequence = [1,2,3] ∧
        s.handler.process.ring.published.length = 3) = true := by
    decide +kernel
  obtain ⟨s,played,seen⟩ := (Option.any_eq_true _ _).mp checked
  obtain ⟨finished,stopped,handed,three⟩ := of_decide_eq_true seen
  have law := (published_stream_iff none {} 0 () .zero patientRun s played).2 finished
  have patient : Avoids (move none {}) GivesUp patientRun oneSlot := by decide +kernel
  exact ⟨s,played,finished,stopped,handed,law.mpr ⟨patient,by rw [three]; decide⟩⟩

/-- The pushed stream is torn: 1 and 3 are in the ring, 2 is not, and the final count is
three. -/
theorem published_stream_torn : ∃ s, play (move none {}) tornRun oneSlot = some s ∧ s.control = .done ∧
    s.handler.process.handed.map FeedMessage.sequence = [1,2,3] ∧
    s.handler.process.ring.published.map (fun event => event.source.sequence) = [1,3] ∧
    ¬ s.handler.process.ring.published.map PipelineEvent.source <+: s.handler.process.handed ∧
    s.handler.process.producedCount = 3 ∧ s.handler.process.ring.published.length = 2 := by
  have checked : (play (move none {}) tornRun oneSlot).any
      (fun s => s.control = .done ∧ s.handler.process.handed.map FeedMessage.sequence = [1,2,3] ∧
        s.handler.process.ring.published.map (fun event => event.source.sequence) = [1,3] ∧
        ¬ s.handler.process.ring.published.map PipelineEvent.source <+: s.handler.process.handed ∧
        s.handler.process.producedCount = 3 ∧ s.handler.process.ring.published.length = 2) = true := by
    decide +kernel
  obtain ⟨s,played,seen⟩ := (Option.any_eq_true _ _).mp checked
  exact ⟨s,played,of_decide_eq_true seen⟩

end HandlerMain
end Llte
