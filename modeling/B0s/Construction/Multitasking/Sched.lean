import B0s.Construction.Lib.List
import B0s.Construction.Multitasking.Process

/-
This file models the scheduler ring of `sched.c`. A process is named by its `sched_list` node, from
which `list_entry` subtracts a constant, so the head of the ring names a record that nobody created.
-/

namespace B0s

/-- The scheduler owns the ring, the process records, its two static pointers, and the processor. -/
structure Sched where
  links : Links
  procs : Nat → Process
  scheduledProcs : Nat
  running : Nat
  schedSchleeper : Nat
  cpu : Cpu

def schedAdd (proc : Nat) (sched : Sched) : Outcome Sched := do
  let links ← listAdd proc sched.scheduledProcs sched.links
  .ok { sched with links := links }

def schedInit (proc : Nat) (sched : Sched) : Outcome Sched :=
  schedAdd proc { sched with schedSchleeper := proc, running := proc }

def schedRmv (proc : Nat) (sched : Sched) : Sched :=
  { sched with
    procs := Function.update sched.procs proc { sched.procs proc with state := .zombie } }

/-- The loop of `sched_switch` lists the nodes it examines and stops at the first ready one. -/
def schedWalk (procs : Nat → Process) (running : Nat) :
    Nat → Nat → Nat → Links → Outcome (List Nat × Option Nat × Links)
  | 0, _, _, _ => .error .diverges
  | steps + 1, pos, n, links =>
      if pos = running then .ok ([], none, links)
      else if (procs pos).state = .ready then .ok ([pos], some pos, links)
      else do
        let links ← if (procs pos).state = .zombie then listDel pos links else .ok links
        let next ← links.readNext n
        let (examined, found, links) ← schedWalk procs running steps n next links
        .ok (pos :: examined, found, links)

/-- A switch reports the nodes it examined and the process it passed to `process_switch`. -/
structure Switch where
  examined : List Nat
  next : Nat
  sched : Sched

def schedSwitch (undefined : Nat → Nat) (sched : Sched) : Outcome Switch := do
  let pos ← sched.links.readNext sched.running
  let n ← sched.links.readNext pos
  let (examined, found, links) ← schedWalk sched.procs sched.running walkLimit pos n sched.links
  match found with
  | some proc =>
      let procs := Function.update sched.procs proc (signalDeliver undefined (sched.procs proc))
      let (procs, cpu) := processSwitch sched.running proc procs sched.cpu
      .ok ⟨examined, proc, { sched with links := links, procs := procs, cpu := cpu }⟩
  | none =>
      let (procs, cpu) := processSwitch sched.running sched.schedSchleeper sched.procs sched.cpu
      .ok ⟨examined, sched.schedSchleeper, { sched with links := links, procs := procs, cpu := cpu }⟩

end B0s
