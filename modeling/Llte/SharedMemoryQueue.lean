import Llte.HandlerProcess

/-! The shared segment between handler and engine: one process creates it under a name
while another attaches to that name. Every system call and every store is a step, each
call may fail, and unlinking a name leaves the mappings of its segment alone. -/
namespace Llte
open Foundation

def kChannelReadyMagic : UInt32 := 0x52454459

structure ShmChannel (p : PowerOfTwo) where
  ready : UInt32
  producerDone : UInt32
  producedCount : UInt64
  queue : SpscQueue PipelineEvent p

/-- A channel just constructed; a segment of zero bytes reads the same. -/
def ShmChannel.initial (p : PowerOfTwo) : ShmChannel p := ⟨0,0,0,SpscQueue.create PipelineEvent p 0⟩

/-- The size of a channel: three cache lines of words, and the events of 80 bytes. -/
def channelBytes (p : PowerOfTwo) : Nat := (192+80*p.capacity.size+63)/64*64

structure Segment (p : PowerOfTwo) where
  size : Nat
  channel : ShmChannel p

/-- Segments live under numbers; names point to them. -/
structure SharedMemory (p : PowerOfTwo) where
  names : String → Option Nat
  segments : Nat → Segment p
  next : Nat
  fresh : ∀ name id, names name = some id → id < next

namespace SharedMemory
variable {p : PowerOfTwo}

def unlink (m : SharedMemory p) (name : String) : SharedMemory p where
  names := fun other => if other = name then none else m.names other
  segments := m.segments
  next := m.next
  fresh := by
    intro other id found
    split at found
    next => simp at found
    next => exact m.fresh other id found

/-- A new segment of no size under a name that was free. -/
def allocate (m : SharedMemory p) (name : String) : SharedMemory p where
  names := fun other => if other = name then some m.next else m.names other
  segments := fun id => if id = m.next then ⟨0,.initial p⟩ else m.segments id
  next := m.next+1
  fresh := by
    intro other id found
    split at found
    next => exact Option.some.inj found ▸ Nat.lt_succ_self _
    next => exact Nat.lt_succ_of_lt (m.fresh other id found)

def put (m : SharedMemory p) (id : Nat) (segment : Segment p) : SharedMemory p :=
  {m with segments := fun other => if other = id then segment else m.segments other}

def write (m : SharedMemory p) (id : Nat) (channel : ShmChannel p) : SharedMemory p :=
  m.put id ⟨(m.segments id).size,channel⟩

/-- A complete channel of an earlier run is still registered under the name. -/
def Stale (m : SharedMemory p) (name : String) : Prop :=
  ∃ id, m.names name = some id ∧ (m.segments id).size = channelBytes p ∧
    (m.segments id).channel.ready = kChannelReadyMagic

end SharedMemory

inductive Creating where
  | unlink
  | openExclusive
  | resize (id : Nat)
  | map (id : Nat)
  | construct (id : Nat)
  | storeDone (id : Nat)
  | storeCount (id : Nat)
  | publish (id : Nat)
  | created (id : Nat)
  | failed
  deriving DecidableEq

inductive Attaching where
  | opening (waited : Int)
  | stat (id : Nat) (waited : Int)
  | map (id : Nat)
  | poll (id : Nat) (waited : Int)
  | attached (id : Nat)
  | failed
  deriving DecidableEq

/-- One `create` and one `attach`. `finished` is the channel at the moment at which
`create` publishes it, `sighted` where `create` is at the moment `attach` succeeds. -/
structure Rendezvous (p : PowerOfTwo) where
  memory : SharedMemory p
  creator : Creating := .unlink
  attacher : Attaching := .opening 0
  finished : Option (ShmChannel p) := none
  sighted : Option Creating := none

/-- The next step of either call, with the outcome of the system call it makes, or
the work of the producer, once `create` has returned. -/
inductive ShmMove (p : PowerOfTwo) where
  | create (ok : Bool)
  | attach (ok : Bool)
  | produce (producerDone : UInt32) (producedCount : UInt64) (queue : SpscQueue PipelineEvent p)

namespace Rendezvous
variable {p : PowerOfTwo}

def intervalMs : Int := 10

def create (name : String) (s : Rendezvous p) (ok : Bool) : Option (Rendezvous p) :=
  match s.creator with
  | .unlink => some {s with memory := s.memory.unlink name, creator := .openExclusive}
  | .openExclusive =>
    if ok ∧ s.memory.names name = none then
      some {s with memory := s.memory.allocate name, creator := .resize s.memory.next}
    else some {s with creator := .failed}
  | .resize id =>
    if ok then
      some {s with memory := s.memory.put id ⟨channelBytes p,.initial p⟩, creator := .map id}
    else some {s with creator := .failed}
  | .map id => some {s with creator := if ok then .construct id else .failed}
  | .construct id =>
    some {s with memory := s.memory.write id (.initial p), creator := .storeDone id}
  | .storeDone id =>
    some {s with
      memory := s.memory.write id {(s.memory.segments id).channel with producerDone := 0}
      creator := .storeCount id}
  | .storeCount id =>
    some {s with
      memory := s.memory.write id {(s.memory.segments id).channel with producedCount := 0}
      creator := .publish id}
  | .publish id =>
    let channel := {(s.memory.segments id).channel with ready := kChannelReadyMagic}
    some {s with memory := s.memory.write id channel, creator := .created id, finished := some channel}
  | .created _ => none
  | .failed => none

def attach (name : String) (timeoutMs : Int) (s : Rendezvous p) (ok : Bool) : Option (Rendezvous p) :=
  match s.attacher with
  | .opening waited =>
    if waited ≤ timeoutMs then
      match ok,s.memory.names name with
      | true,some id => some {s with attacher := .stat id waited}
      | _,_ => some {s with attacher := .opening (waited+intervalMs)}
    else some {s with attacher := .failed}
  | .stat id waited =>
    if ok ∧ (s.memory.segments id).size = channelBytes p then some {s with attacher := .map id}
    else some {s with attacher := .opening (waited+intervalMs)}
  | .map id => some {s with attacher := if ok then .poll id 0 else .failed}
  | .poll id waited =>
    if waited ≤ timeoutMs then
      if (s.memory.segments id).channel.ready = kChannelReadyMagic then
        some {s with attacher := .attached id, sighted := some s.creator}
      else some {s with attacher := .poll id (waited+intervalMs)}
    else some {s with attacher := .failed}
  | .attached _ => none
  | .failed => none

def move (name : String) (timeoutMs : Int) (s : Rendezvous p) : ShmMove p → Option (Rendezvous p)
  | .create ok => s.create name ok
  | .attach ok => s.attach name timeoutMs ok
  | .produce producerDone producedCount queue =>
    match s.creator with
    | .created id =>
      let ready := (s.memory.segments id).channel.ready
      some {s with memory := s.memory.write id ⟨ready,producerDone,producedCount,queue⟩}
    | _ => none

/-- If both calls succeed, the engine has the channel that was created, it was complete
when `attach` found it, and it was empty and open when it was completed. -/
def Live (s : Rendezvous p) : Prop :=
  ∀ id id', s.creator = .created id → s.attacher = .attached id' →
    id' = id ∧ s.sighted = some (.created id) ∧ ∃ channel, s.finished = some channel ∧
      channel.queue.writeIdx = 0 ∧ channel.queue.readIdx = 0 ∧ channel.producerDone = 0

/-- The number of the segment that `create` has opened, when the two calls start in the
memory `m₀`. -/
def Own (m₀ : SharedMemory p) (s : Rendezvous p) (id : Nat) : Prop :=
  id = m₀.next ∧ m₀.next < s.memory.next

def Found (m₀ : SharedMemory p) (name : String) (s : Rendezvous p) (id : Nat) : Prop :=
  m₀.names name = some id ∨ Own m₀ s id

def Made (m₀ : SharedMemory p) (s : Rendezvous p) : Creating → Prop
  | .unlink => s.memory.next = m₀.next
  | .openExclusive => s.memory.next = m₀.next
  | .resize id => Own m₀ s id
  | .map id => Own m₀ s id
  | .construct id => Own m₀ s id
  | .storeDone id => Own m₀ s id ∧ (s.memory.segments id).channel = .initial p
  | .storeCount id => Own m₀ s id ∧ (s.memory.segments id).channel = .initial p
  | .publish id => Own m₀ s id ∧ (s.memory.segments id).channel = .initial p
  | .created id => Own m₀ s id ∧ s.finished = some {ShmChannel.initial p with ready := kChannelReadyMagic}
  | .failed => True

def Held (m₀ : SharedMemory p) (name : String) (s : Rendezvous p) : Attaching → Prop
  | .opening _ => True
  | .stat id _ => Found m₀ name s id
  | .map id => Found m₀ name s id ∧ (s.memory.segments id).size = channelBytes p
  | .poll id _ => Found m₀ name s id ∧ (s.memory.segments id).size = channelBytes p
  | .attached id => Found m₀ name s id ∧ (s.memory.segments id).size = channelBytes p ∧
    (s.memory.segments id).channel.ready = kChannelReadyMagic ∧ (id = m₀.next → s.sighted = some (.created id))
  | .failed => True

structure Sharing (m₀ : SharedMemory p) (name : String) (s : Rendezvous p) : Prop where
  old : ∀ id, id < m₀.next → s.memory.segments id = m₀.segments id
  named : ∀ id, s.memory.names name = some id → Found m₀ name s id
  ready : m₀.next < s.memory.next → (s.memory.segments m₀.next).channel.ready =
    if s.creator = .created m₀.next then kChannelReadyMagic else 0
  made : Made m₀ s s.creator
  held : Held m₀ name s s.attacher

/-- What a step of the creating process leaves alone for the other one. -/
structure Frame (m₀ : SharedMemory p) (s s' : Rendezvous p) : Prop where
  next : s.memory.next ≤ s'.memory.next
  others : ∀ id, id ≠ m₀.next → s'.memory.segments id = s.memory.segments id
  size : m₀.next < s.memory.next → (s.memory.segments m₀.next).size = channelBytes p →
    (s'.memory.segments m₀.next).size = channelBytes p
  ready : m₀.next < s.memory.next → (s.memory.segments m₀.next).channel.ready = kChannelReadyMagic →
    (s'.memory.segments m₀.next).channel.ready = kChannelReadyMagic
  attacher : s'.attacher = s.attacher
  sighted : s'.sighted = s.sighted

namespace Frame
variable {m₀ : SharedMemory p} {name : String} {s s' : Rendezvous p} {id : Nat}

theorem own (frame : Frame m₀ s s') (own : Own m₀ s id) : Own m₀ s' id :=
  ⟨own.1,Nat.lt_of_lt_of_le own.2 frame.next⟩

theorem found (frame : Frame m₀ s s') (found : Found m₀ name s id) : Found m₀ name s' id :=
  found.imp_right frame.own

private theorem sized (frame : Frame m₀ s s') (found : Found m₀ name s id)
    (sized : (s.memory.segments id).size = channelBytes p) : (s'.memory.segments id).size = channelBytes p := by
  rcases found with registered | ⟨rfl,opened⟩
  · rwa [frame.others id (Nat.ne_of_lt (m₀.fresh name id registered))]
  · exact frame.size opened sized

theorem set (frame : Frame m₀ s s') (found : Found m₀ name s id)
    (set : (s.memory.segments id).channel.ready = kChannelReadyMagic) :
    (s'.memory.segments id).channel.ready = kChannelReadyMagic := by
  rcases found with registered | ⟨rfl,opened⟩
  · rwa [frame.others id (Nat.ne_of_lt (m₀.fresh name id registered))]
  · exact frame.ready opened set

theorem held (frame : Frame m₀ s s') (held : Held m₀ name s s.attacher) : Held m₀ name s' s'.attacher := by
  rw [frame.attacher]
  cases here : s.attacher with
  | opening waited => trivial
  | stat id waited =>
    rw [here] at held
    exact frame.found held
  | map id =>
    rw [here] at held
    exact ⟨frame.found held.1,frame.sized held.1 held.2⟩
  | poll id waited =>
    rw [here] at held
    exact ⟨frame.found held.1,frame.sized held.1 held.2⟩
  | attached id =>
    rw [here] at held
    obtain ⟨found,sized,set,seen⟩ := held
    refine ⟨frame.found found,frame.sized found sized,frame.set found set,?_⟩
    rw [frame.sighted]
    exact seen
  | failed => trivial

end Frame

namespace Sharing
variable {m₀ : SharedMemory p} {name : String} {s s' : Rendezvous p}

theorem start (m₀ : SharedMemory p) (name : String) : Sharing m₀ name {memory := m₀} :=
  ⟨fun _ _ => rfl,fun _ registered => .inl registered,fun opened => absurd opened (Nat.lt_irrefl _),rfl,trivial⟩

/-- A step of `create` after which the name leads where it led before, or nowhere. -/
theorem framed (sharing : Sharing m₀ name s) (frame : Frame m₀ s s')
    (names : ∀ id, s'.memory.names name = some id → s.memory.names name = some id)
    (ready : m₀.next < s'.memory.next → (s'.memory.segments m₀.next).channel.ready =
      if s'.creator = .created m₀.next then kChannelReadyMagic else 0)
    (made : Made m₀ s' s'.creator) : Sharing m₀ name s' := by
  refine ⟨?_,fun id found => frame.found (sharing.named id (names id found)),ready,made,frame.held sharing.held⟩
  intro id earlier
  rw [frame.others id (Nat.ne_of_lt earlier)]
  exact sharing.old id earlier

/-- A step of `create` that does not touch the memory. -/
theorem goes (sharing : Sharing m₀ name s) {creator : Creating} (before : s.creator ≠ .created m₀.next)
    (after : creator ≠ .created m₀.next) (made : Made m₀ {s with creator := creator} creator) :
    Sharing m₀ name {s with creator := creator} := by
  refine sharing.framed ⟨Nat.le_refl _,fun _ _ => rfl,fun _ same => same,fun _ same => same,rfl,rfl⟩
    (fun _ found => found) ?_ made
  intro opened
  rw [if_neg after,sharing.ready opened,if_neg before]

/-- A step of `create` that writes its own segment. -/
theorem writes (sharing : Sharing m₀ name s) (before : s.creator ≠ .created m₀.next)
    (opened : m₀.next < s.memory.next) {segment : Segment p} {creator : Creating}
    {finished : Option (ShmChannel p)}
    (size : segment.size = channelBytes p ∨ segment.size = (s.memory.segments m₀.next).size)
    (ready : segment.channel.ready = if creator = .created m₀.next then kChannelReadyMagic else 0)
    (made : Made m₀ {s with memory := s.memory.put m₀.next segment, creator := creator, finished := finished}
      creator) :
    Sharing m₀ name
      {s with memory := s.memory.put m₀.next segment, creator := creator, finished := finished} := by
  have own : (s.memory.put m₀.next segment).segments m₀.next = segment := if_pos rfl
  refine sharing.framed ⟨Nat.le_refl _,fun id other => if_neg other,?_,?_,rfl,rfl⟩ (fun _ found => found) ?_ made
  · intro _ sized
    rw [own]
    exact size.elim id (fun same => same.trans sized)
  · intro _ set
    rw [sharing.ready opened,if_neg before] at set
    exact absurd set (by decide)
  · intro _
    rw [own]
    exact ready

/-- A step that leaves the channel as `create` constructs it. -/
theorem constructs (sharing : Sharing m₀ name s) (before : s.creator ≠ .created m₀.next)
    (opened : m₀.next < s.memory.next) {creator : Creating} (after : creator ≠ .created m₀.next)
    (made : ∀ s : Rendezvous p, Own m₀ s m₀.next → (s.memory.segments m₀.next).channel = .initial p →
      Made m₀ s creator) :
    Sharing m₀ name {s with memory := s.memory.write m₀.next (.initial p), creator := creator} := by
  refine sharing.writes before opened (.inr rfl) (by rw [if_neg after]; rfl) (made _ ⟨rfl,opened⟩ ?_)
  exact congrArg Segment.channel (if_pos rfl)

private theorem unlinks (sharing : Sharing m₀ name s) (here : s.creator = .unlink) :
    Sharing m₀ name {s with memory := s.memory.unlink name, creator := .openExclusive} := by
  have made := sharing.made
  rw [here] at made
  refine sharing.framed ⟨Nat.le_refl _,fun _ _ => rfl,fun _ same => same,fun _ same => same,rfl,rfl⟩ ?_ ?_ made
  · intro id found
    simp [SharedMemory.unlink] at found
  · intro opened
    change m₀.next < s.memory.next at opened
    rw [made] at opened
    exact absurd opened (Nat.lt_irrefl _)

theorem opens (sharing : Sharing m₀ name s) (here : s.creator = .openExclusive) :
    Sharing m₀ name {s with memory := s.memory.allocate name, creator := .resize s.memory.next} := by
  have next : s.memory.next = m₀.next := by
    have made := sharing.made
    rwa [here] at made
  have opened : m₀.next < s.memory.next+1 := by omega
  have own : (s.memory.allocate name).segments m₀.next = ⟨0,.initial p⟩ := if_pos next.symm
  have frame : Frame m₀ s {s with memory := s.memory.allocate name, creator := .resize s.memory.next} :=
    ⟨Nat.le_succ _,fun id other => if_neg (by rw [next]; exact other),
      fun before => by omega,fun before => by omega,rfl,rfl⟩
  refine ⟨?_,?_,?_,⟨next,opened⟩,frame.held sharing.held⟩
  · intro id earlier
    rw [frame.others id (Nat.ne_of_lt earlier)]
    exact sharing.old id earlier
  · intro id found
    refine .inr ⟨?_,opened⟩
    simpa [SharedMemory.allocate,next,eq_comm] using found
  · intro _
    rw [own,if_neg (by simp)]
    rfl

theorem create {ok : Bool} (sharing : Sharing m₀ name s) (taken : s.create name ok = some s') :
    Sharing m₀ name s' := by
  have made := sharing.made
  unfold Rendezvous.create at taken
  split at taken
  next here =>
    rw [← Option.some.inj taken]
    exact sharing.unlinks here
  next here =>
    split at taken
    next =>
      rw [← Option.some.inj taken]
      exact sharing.opens here
    next =>
      rw [← Option.some.inj taken]
      exact sharing.goes (by simp [here]) (by simp) trivial
  next id here =>
    rw [here] at made
    obtain ⟨rfl,opened⟩ := made
    split at taken
    next =>
      rw [← Option.some.inj taken]
      exact sharing.writes (by simp [here]) opened (.inl rfl) (by simp [ShmChannel.initial]) ⟨rfl,opened⟩
    next =>
      rw [← Option.some.inj taken]
      exact sharing.goes (by simp [here]) (by simp) trivial
  next id here =>
    rw [here] at made
    rw [← Option.some.inj taken]
    cases ok with
    | true => exact sharing.goes (by simp [here]) (by simp) made
    | false => exact sharing.goes (by simp [here]) (by simp) trivial
  next id here =>
    rw [here] at made
    obtain ⟨rfl,opened⟩ := made
    rw [← Option.some.inj taken]
    exact sharing.constructs (by simp [here]) opened (by simp) (fun _ own channel => ⟨own,channel⟩)
  next id here =>
    rw [here] at made
    obtain ⟨⟨rfl,opened⟩,channel⟩ := made
    rw [← Option.some.inj taken,channel]
    exact sharing.constructs (by simp [here]) opened (by simp) (fun _ own channel => ⟨own,channel⟩)
  next id here =>
    rw [here] at made
    obtain ⟨⟨rfl,opened⟩,channel⟩ := made
    rw [← Option.some.inj taken,channel]
    exact sharing.constructs (by simp [here]) opened (by simp) (fun _ own channel => ⟨own,channel⟩)
  next id here =>
    rw [here] at made
    obtain ⟨⟨rfl,opened⟩,channel⟩ := made
    dsimp only at taken
    rw [← Option.some.inj taken,channel]
    exact sharing.writes (by simp [here]) opened (.inr rfl) (by simp) ⟨⟨rfl,opened⟩,rfl⟩
  next => simp at taken
  next => simp at taken

theorem produce {producerDone : UInt32} {producedCount : UInt64} {queue : SpscQueue PipelineEvent p}
    {timeoutMs : Int} (sharing : Sharing m₀ name s)
    (taken : s.move name timeoutMs (.produce producerDone producedCount queue) = some s') :
    Sharing m₀ name s' := by
  have made := sharing.made
  simp only [move] at taken
  split at taken
  next id here =>
    rw [here] at made
    obtain ⟨⟨rfl,opened⟩,finished⟩ := made
    rw [← Option.some.inj taken]
    have own (channel : ShmChannel p) : ((s.memory.write m₀.next channel).segments m₀.next) =
      ⟨(s.memory.segments m₀.next).size,channel⟩ := if_pos rfl
    refine sharing.framed ⟨Nat.le_refl _,fun id other => if_neg other,?_,?_,rfl,rfl⟩ (fun _ found => found) ?_ ?_
    · intro _ sized
      rw [own]
      exact sized
    · intro _ set
      rw [own]
      exact set
    · intro _
      rw [own]
      exact sharing.ready opened
    · dsimp only
      rw [here]
      exact ⟨⟨rfl,opened⟩,finished⟩
  next => simp at taken

/-- A step of `attach` changes nothing but what `attach` knows. -/
theorem looks (sharing : Sharing m₀ name s) {attacher : Attaching} {sighted : Option Creating}
    (held : Held m₀ name {s with attacher := attacher, sighted := sighted} attacher) :
    Sharing m₀ name {s with attacher := attacher, sighted := sighted} := by
  refine ⟨sharing.old,sharing.named,sharing.ready,?_,held⟩
  have made := sharing.made
  cases here : s.creator <;> rw [here] at made <;> exact made

/-- The flag of the own segment is set only once it is complete. -/
theorem complete (sharing : Sharing m₀ name s) {id : Nat} (found : Found m₀ name s id) (new : id = m₀.next)
    (set : (s.memory.segments id).channel.ready = kChannelReadyMagic) : s.creator = .created id := by
  rcases found with registered | own
  · exact absurd new (Nat.ne_of_lt (m₀.fresh name id registered))
  · rw [new,sharing.ready own.2] at set
    rw [new]
    by_contra pending
    rw [if_neg pending] at set
    exact absurd set (by decide)

private theorem attach {ok : Bool} {timeoutMs : Int} (sharing : Sharing m₀ name s)
    (taken : s.attach name timeoutMs ok = some s') : Sharing m₀ name s' := by
  have held := sharing.held
  unfold Rendezvous.attach at taken
  split at taken
  next waited here =>
    split at taken
    next =>
      split at taken
      next id registered =>
        rw [← Option.some.inj taken]
        exact sharing.looks (sharing.named id registered)
      next =>
        rw [← Option.some.inj taken]
        exact sharing.looks trivial
    next =>
      rw [← Option.some.inj taken]
      exact sharing.looks trivial
  next id waited here =>
    rw [here] at held
    split at taken
    next both =>
      rw [← Option.some.inj taken]
      exact sharing.looks ⟨held,both.2⟩
    next =>
      rw [← Option.some.inj taken]
      exact sharing.looks trivial
  next id here =>
    rw [here] at held
    rw [← Option.some.inj taken]
    cases ok with
    | true => exact sharing.looks held
    | false => exact sharing.looks trivial
  next id waited here =>
    rw [here] at held
    split at taken
    next =>
      split at taken
      next set =>
        rw [← Option.some.inj taken]
        exact sharing.looks ⟨held.1,held.2,set,fun new => congrArg some (sharing.complete held.1 new set)⟩
      next =>
        rw [← Option.some.inj taken]
        exact sharing.looks held
    next =>
      rw [← Option.some.inj taken]
      exact sharing.looks trivial
  next => simp at taken
  next => simp at taken

theorem move {m : ShmMove p} {timeoutMs : Int} (sharing : Sharing m₀ name s)
    (taken : s.move name timeoutMs m = some s') : Sharing m₀ name s' := by
  cases m with
  | create ok => exact sharing.create taken
  | attach ok => exact sharing.attach taken
  | produce producerDone producedCount queue => exact sharing.produce taken

end Sharing

/-- Without time, nothing is ever opened. -/
theorem attach_impatient {name : String} {timeoutMs : Int} (negative : timeoutMs < 0) {m₀ : SharedMemory p}
    {s : Rendezvous p} (reached : Reached (move name timeoutMs) {memory := m₀} s) :
    s.attacher = .opening 0 ∨ s.attacher = .failed := by
  refine reached.invariant (I := fun s => s.attacher = .opening 0 ∨ s.attacher = .failed) (.inl rfl) ?_
  intro s m s' waiting taken
  cases m with
  | create ok =>
    simp only [move,create] at taken
    repeat' split at taken
    all_goals first
      | (rw [← Option.some.inj taken]; exact waiting)
      | simp at taken
  | attach ok =>
    rcases waiting with first | failed
    · simp only [move,attach,first,if_neg (Int.not_le.mpr negative)] at taken
      rw [← Option.some.inj taken]
      exact .inr rfl
    · simp [move,attach,failed] at taken
  | produce producerDone producedCount queue =>
    simp only [move] at taken
    split at taken
    · rw [← Option.some.inj taken]
      exact waiting
    · simp at taken

/-- `attach` goes first and finds the old channel; then `create` replaces it. -/
def overtaking (p : PowerOfTwo) : List (ShmMove p) :=
  [.attach true,.attach true,.attach true,.attach true,.create true,.create true,.create true,.create true,
    .create true,.create true,.create true,.create true]

private theorem stale_attached {name : String} {timeoutMs : Int} (patient : 0 ≤ timeoutMs) {m₀ : SharedMemory p}
    {id : Nat} (registered : m₀.names name = some id) (sized : (m₀.segments id).size = channelBytes p)
    (set : (m₀.segments id).channel.ready = kChannelReadyMagic) :
    ∃ s, Reached (move name timeoutMs) {memory := m₀} s ∧ s.creator = .created m₀.next ∧
      s.attacher = .attached id ∧ ¬ s.Live := by
  have played : ∃ s, play (move name timeoutMs) (overtaking p) {memory := m₀} = some s ∧
      s.creator = .created m₀.next ∧ s.attacher = .attached id := by
    simp [overtaking,play,move,attach,create,registered,sized,set,patient,SharedMemory.unlink,
      SharedMemory.allocate,SharedMemory.put,SharedMemory.write]
  obtain ⟨s,ran,created,attached⟩ := played
  refine ⟨s,play_reached ran,created,attached,fun live => ?_⟩
  exact Nat.ne_of_lt (m₀.fresh name id registered) (live _ _ created attached).1

/-- Over all interleavings of one `create` and one `attach`, the attached channel is
the live one exactly if no complete channel is registered under the name before, or
`attach` does not wait at all. -/
theorem attach_live_iff (name : String) (timeoutMs : Int) (m₀ : SharedMemory p) :
    (∀ s, Reached (move name timeoutMs) {memory := m₀} s → s.Live) ↔ timeoutMs < 0 ∨ ¬ m₀.Stale name := by
  constructor
  · intro live
    by_contra neither
    rw [not_or,not_not] at neither
    obtain ⟨patient,id,registered,sized,set⟩ := neither
    obtain ⟨s,reached,_,_,other⟩ := stale_attached (Int.not_lt.mp patient) registered sized set
    exact other (live s reached)
  · rintro (negative | none) s reached id id' created attached
    · rcases attach_impatient negative reached with first | failed
      · rw [first] at attached
        simp at attached
      · rw [failed] at attached
        simp at attached
    · have sharing : Sharing m₀ name s :=
        reached.invariant (Sharing.start m₀ name) (fun _ _ _ sharing taken => sharing.move taken)
      have made := sharing.made
      have held := sharing.held
      rw [created] at made
      rw [attached] at held
      obtain ⟨⟨rfl,_⟩,finished⟩ := made
      obtain ⟨registered | own,sized,set,seen⟩ := held
      · have earlier := m₀.fresh name id' registered
        rw [sharing.old id' earlier] at sized set
        exact absurd ⟨id',registered,sized,set⟩ none
      · obtain ⟨rfl,_⟩ := own
        exact ⟨rfl,seen rfl,_,finished,rfl,rfl,rfl⟩

/-- What a crashed run has left: a complete channel with old indexes, marked done. -/
def leftover : SharedMemory ⟨16,by decide⟩ where
  names := fun name => if name = "/llte_feed" then some 0 else none
  segments := fun _ => ⟨channelBytes ⟨16,by decide⟩,{
    ready := kChannelReadyMagic
    producerDone := 1
    producedCount := 9
    queue := SpscQueue.create PipelineEvent ⟨16,by decide⟩ 9}⟩
  next := 1
  fresh := by
    intro name id found
    split at found
    next => exact Option.some.inj found ▸ Nat.zero_lt_one
    next => simp at found

theorem attach_leftover : ∃ s, Reached (move "/llte_feed" 10000) {memory := leftover} s ∧
    s.creator = .created 1 ∧ s.attacher = .attached 0 ∧ ¬ s.Live :=
  stale_attached (by decide) rfl rfl rfl

end Rendezvous
end Llte
