import CloudBurrow.Process.Threads
import CloudBurrow.Codec.Utf8

namespace CloudBurrow.PubSub

open Threads Utf8

section Durations

def maxDuration : Int := 2 ^ 63 - 1

def day : Int := 24 * 3600 * 10 ^ 9

def defaultTTL : Int := 31 * day

def minTTL : Int := day

def saturate (d : Int) : Int := max (-2 ^ 63) (min maxDuration d)

structure Policy where
  ttl : Int
deriving DecidableEq

def updatedPolicy (p : Option Policy) : Policy := p.getD ⟨defaultTTL⟩

def subscriptionTTL : Option Policy → Option Int
  | none => some defaultTTL
  | some p => if 0 < saturate p.ttl then some (saturate p.ttl) else none

def Policy.expiry : Option Policy → Option Int
  | none => some defaultTTL
  | some p => if 0 < p.ttl then some p.ttl else none

end Durations

abbrev Labels := List (Bytes × Bytes)

structure SubState where
  last : Int
  streams : Nat
  record : Nat
deriving DecidableEq

structure Sub where
  id : Nat
  created : Int
  policy : Option Policy
  push : Bool
deriving DecidableEq

structure Kept (α : Type) where
  value : α
  owner : Option Nat
deriving DecidableEq

structure Front (Name : Type) where
  wall : Int
  offset : Int
  subs : AList fun _ : Name => SubState
  policies : Name → Option (Kept Policy)
  labels : Name → Option (Kept Labels)
  relaying : Bool
  sweeping : Bool
  emulator : Name → Option Sub
  ids : Nat
  records : Nat
  activity : Name → Int

variable {Name : Type} [DecidableEq Name]

namespace Front

variable (f : Front Name)

def now : Int := f.wall + f.offset

def mark (name : Name) (streams : Nat → Nat) : Front Name :=
  let s := (f.subs.lookup name).getD ⟨0, 0, f.records⟩
  { f with
    subs := f.subs.insert name ⟨f.now, streams s.streams, s.record⟩
    records := f.records + 1
    activity := Function.update f.activity name f.now }

def touch (name : Name) : Front Name := f.mark name id

def openStream (name : Name) : Front Name := f.mark name (· + 1)

def closeStream (name : Name) : Front Name := f.mark name (· - 1)

def dropKept (name : Name) : Front Name :=
  { f with policies := Function.update f.policies name none, labels := Function.update f.labels name none }

def forget (name : Name) : Front Name := { f.dropKept name with subs := f.subs.erase name }

def idleSince (name : Name) (last : Int) : Bool :=
  (f.subs.lookup name).any fun s => s.streams = 0 && s.last = last

def forgetIfIdleSince (name : Name) (last : Int) : Front Name :=
  if f.idleSince name last then { f with subs := f.subs.erase name } else f

def owner (name : Name) : Option Nat := (f.emulator name).map Sub.id

def setPolicy (name : Name) (p : Policy) : Front Name :=
  { f with policies := Function.update f.policies name (some ⟨p, f.owner name⟩) }

def setLabels (name : Name) (l : Labels) : Front Name :=
  { f with labels := Function.update f.labels name (some ⟨l, f.owner name⟩) }

def policyOf (name : Name) (p : Option Policy) : Option Policy :=
  match f.policies name with
  | some k => some k.value
  | none => p

def create (name : Name) (p : Option Policy) (push : Bool) : Front Name :=
  { f with
    emulator := Function.update f.emulator name (some ⟨f.ids, f.now, p, push⟩)
    ids := f.ids + 1
    activity := Function.update f.activity name f.now }

def remove (name : Name) : Front Name := { f with emulator := Function.update f.emulator name none }

def setPush (name : Name) (push : Bool) : Front Name :=
  { f with emulator := Function.update f.emulator name ((f.emulator name).map fun e => { e with push }) }

def advance (d : Int) : Front Name := { f with offset := Int.bmod (f.offset + d) (2 ^ 64) }

end Front

inductive Op (Name : Type) where
  | stay
  | lock (held : Bool)
  | pass (d : Nat)
  | advance (d : Int)
  | relay (on : Bool)
  | touch (name : Name)
  | openStream (name : Name)
  | closeStream (name : Name)
  | forget (name : Name)
  | dropKept (name : Name)
  | forgetIfIdleSince (name : Name) (last : Int)
  | setPolicy (name : Name) (p : Policy)
  | setLabels (name : Name) (l : Labels)
  | create (name : Name) (p : Option Policy) (push : Bool)
  | remove (name : Name)
  | setPush (name : Name) (push : Bool)

def Op.apply (f : Front Name) : Op Name → Front Name
  | .stay => f
  | .lock held => { f with sweeping := held }
  | .pass d => { f with wall := f.wall + d }
  | .advance d => f.advance d
  | .relay on => { f with relaying := on }
  | .touch name => f.touch name
  | .openStream name => f.openStream name
  | .closeStream name => f.closeStream name
  | .forget name => f.forget name
  | .dropKept name => f.dropKept name
  | .forgetIfIdleSince name last => f.forgetIfIdleSince name last
  | .setPolicy name p => f.setPolicy name p
  | .setLabels name l => f.setLabels name l
  | .create name p push => f.create name p push
  | .remove name => f.remove name
  | .setPush name push => f.setPush name push

section Calls

inductive PullStage where
  | request
  | done
deriving DecidableEq

inductive CreateStage where
  | upstream
  | response
  | done
deriving DecidableEq

inductive DeleteStage where
  | request
  | upstream
  | done
deriving DecidableEq

inductive UpdateStage where
  | request
  | upstream
  | policy
  | labels
  | done
deriving DecidableEq

inductive StreamStage where
  | request
  | upstream (record : Nat)
  | opened (record : Nat) (sub : Option Nat)
deriving DecidableEq

structure Candidate (Name : Type) where
  name : Name
  last : Int
deriving DecidableEq

structure Round (Name : Type) where
  now : Int
  idle : List (Candidate Name)
deriving DecidableEq

inductive SweepStage (Name : Type) where
  | waiting
  | listing
  | timing (idle : List (Candidate Name))
  | next (r : Round Name)
  | reading (c : Candidate Name) (r : Round Name)
  | keeping (c : Candidate Name) (sub : Sub) (r : Round Name)
  | judging (c : Candidate Name) (p : Option Policy) (push : Bool) (r : Round Name)
  | checking (c : Candidate Name) (r : Round Name)
  | deleting (c : Candidate Name) (r : Round Name)
  | dropping (c : Candidate Name) (r : Round Name)
  | forgetting (c : Candidate Name) (r : Round Name)
deriving DecidableEq

inductive Thread (Name : Type) where
  | pull (name : Name) (stage : PullStage)
  | relayed (name : Name)
  | create (name : Name) (p : Option Policy) (push : Bool) (stage : CreateStage)
  | delete (name : Name) (stage : DeleteStage)
  | update (name : Name) (p : Option (Option Policy)) (labels : Option Labels) (push : Option Bool) (stage : UpdateStage)
  | streamingPull (name : Name) (stage : StreamStage)
  | pass (d : Nat)
  | advance (d : Int)
  | relay (on : Bool)
  | sweep (stage : SweepStage Name)
deriving DecidableEq

inductive Answer where
  | ok
  | refused
  | lost
deriving DecidableEq

structure Input where
  answer : Answer
  pick : Nat
deriving DecidableEq

end Calls

section Steps

variable (input : Input) (f : Front Name)

def doneOp (name : Name) : Op Name := if input.answer = .ok then .touch name else .stay

def SweepStage.op : SweepStage Name → Op Name
  | .waiting => if f.sweeping then .stay else .lock true
  | .next r => if r.idle = [] then .lock false else .stay
  | .deleting c _ => if input.answer = .refused then .stay else .remove c.name
  | .dropping c _ => .dropKept c.name
  | .forgetting c _ => .forgetIfIdleSince c.name c.last
  | _ => .stay

def Thread.op : Thread Name → Op Name
  | .pull name .request => .touch name
  | .pull name .done => doneOp input name
  | .relayed name => .touch name
  | .create name p push .upstream =>
    if input.answer = .refused ∨ (f.emulator name).isSome then .stay else .create name (some (updatedPolicy p)) push
  | .create name _ _ .response => .dropKept name
  | .create name _ _ .done => doneOp input name
  | .delete name .request => .touch name
  | .delete name .upstream => if input.answer = .refused then .stay else .remove name
  | .delete name .done => .forget name
  | .update name _ _ _ .request => .touch name
  | .update name _ _ push .upstream =>
    if input.answer = .refused then .stay
    else match push with
      | none => .stay
      | some push => .setPush name push
  | .update name p _ _ .policy =>
    match p with
    | none => .stay
    | some p => .setPolicy name (updatedPolicy p)
  | .update name _ labels _ .labels =>
    match labels with
    | none => .stay
    | some l => .setLabels name l
  | .update name _ _ _ .done => doneOp input name
  | .streamingPull name .request => .openStream name
  | .streamingPull _ (.upstream _) => .stay
  | .streamingPull name (.opened _ _) => .closeStream name
  | .pass d => .pass d
  | .advance d => .advance d
  | .relay on => .relay on
  | .sweep stage => stage.op input f

def candidates : List (Candidate Name) :=
  (f.subs.entries.filter fun p => p.2.streams = 0).map fun p => ⟨p.1, p.2.last⟩

def Round.take (r : Round Name) : Option (Candidate Name × Round Name) :=
  (r.idle[input.pick % r.idle.length]?).map fun c => (c, { r with idle := r.idle.eraseIdx (input.pick % r.idle.length) })

def SweepStage.after : SweepStage Name → List (SweepStage Name)
  | .waiting => [if f.sweeping then .waiting else .listing]
  | .listing => [.timing (candidates f)]
  | .timing idle => [.next ⟨f.now, idle⟩]
  | .next r =>
    match r.take input with
    | none => []
    | some (c, r) => [if saturate (r.now - c.last) < minTTL then .next r else .reading c r]
  | .reading c r =>
    if input.answer = .ok then
      match f.emulator c.name with
      | none => [.forgetting c r]
      | some sub => [.keeping c sub r]
    else [.next r]
  | .keeping c sub r => [.judging c (f.policyOf c.name sub.policy) sub.push r]
  | .judging c p push r =>
    match subscriptionTTL p with
    | none => [.next r]
    | some ttl => [if (push && !f.relaying) || saturate (r.now - c.last) < ttl then .next r else .checking c r]
  | .checking c r => [if f.idleSince c.name c.last then .deleting c r else .next r]
  | .deleting c r => [if input.answer = .ok then .dropping c r else .next r]
  | .dropping c r => [.forgetting c r]
  | .forgetting _ r => [.next r]

def Thread.after : Thread Name → List (Thread Name)
  | .pull name .request => [.pull name .done]
  | .create name p push .upstream =>
    if input.answer = .ok ∧ f.emulator name = none then [.create name p push .response] else []
  | .create name p push .response => [.create name p push .done]
  | .delete name .request => [.delete name .upstream]
  | .delete name .upstream => if input.answer = .ok ∧ f.emulator name ≠ none then [.delete name .done] else []
  | .update name p labels push .request => [.update name p labels push .upstream]
  | .update name p labels push .upstream =>
    [.update name p labels push (if input.answer = .ok ∧ f.emulator name ≠ none then .policy else .done)]
  | .update name p labels push .policy => [.update name p labels push .labels]
  | .update name p labels push .labels => [.update name p labels push .done]
  | .streamingPull name .request =>
    [.streamingPull name (.upstream ((f.subs.lookup name).elim f.records SubState.record))]
  | .streamingPull name (.upstream record) =>
    [.streamingPull name (.opened record (if input.answer = .refused then none else f.owner name))]
  | .advance _ => [.sweep .waiting]
  | .sweep stage => (stage.after input f).map .sweep
  | _ => []

end Steps

def program : Program (Front Name) (Thread Name) Input where
  advance input t f := (t.after input f, (t.op input f).apply f)

abbrev World (Name : Type) := Sys (Front Name) (Thread Name)

def Front.started (wall : Int) : Front Name where
  wall := wall
  offset := 0
  subs := ∅
  policies := fun _ => none
  labels := fun _ => none
  relaying := false
  sweeping := false
  emulator := fun _ => none
  ids := 0
  records := 0
  activity := fun _ => wall

def started (wall : Int) : World Name := ⟨.started wall, []⟩

end CloudBurrow.PubSub
