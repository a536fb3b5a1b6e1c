import RegisterVm.Watch.Window

/-!
# Sessions

Several machines for one frame, looked at and stepped by commands. At most one
watcher is attached to each machine: the console, or a window of the session. A
watcher hears of a step after it took effect, so a watcher that fails does not
undo the step. The latest window is *the* window that commands read and clear;
older ones stay attached where they are.
-/

namespace RegisterVm.Watch

inductive Watcher where
  | console
  | window (id : Nat)
  deriving DecidableEq, Repr

/-- A machine with the watcher that is attached to it. -/
structure Watched where
  machine : Machine
  watcher : Option Watcher := none

/-- A step of a watched machine, and who hears of it: the watcher, if there is
one and the step ran. -/
def Watched.step (w : Watched) : Outcome × Option (Watcher × Event) × Watched :=
  let (outcome, m) := w.machine.step
  let heard := match outcome with
    | .executed e => w.watcher.map fun watcher => (watcher, e)
    | _ => none
  (outcome, heard, { w with machine := m })

structure Session where
  frame : Frame
  machines : List Watched
  selected : Nat := 0
  windows : List Window := [{ limit := Window.usualLimit }]

inductive Command where
  | step
  | register (index : Int)
  | constant (ref : Int)
  | value (ref : Int)
  | result
  | setRegister (index : Int) (v : Value)
  | registers
  | snapshot
  | summary
  | listing
  | isHalted
  | fork
  | select (index : Nat)
  | watchNothing
  | watchConsole
  | watchWindow (limit : Int)
  | watchLatest
  | window
  | clearWindow

/-- The answer to a command. -/
inductive Reply where
  | done
  | flag (b : Bool)
  | index (n : Nat)
  | text (s : String)
  | value (v : Option Value)
  | values (vs : List Value)
  | window (w : Window)

inductive SessionError where
  | step (e : StepError)
  | noText (e : TagError)
  | window (e : WindowError)

/-- What a command leads to: its answer, what it prints, and the session after
it. -/
structure Response where
  reply : Except SessionError Reply
  printed : String := ""
  session : Session

namespace Session

/-- A session with one fresh machine. -/
def start (f : Frame) : Session where
  frame := f
  machines := [{ machine := Machine.start f }]

def current (s : Session) : Watched :=
  s.machines.getD s.selected { machine := Machine.start s.frame }

/-- The session with its selected machine changed. -/
def update (s : Session) (change : Watched → Watched) : Session :=
  { s with machines := s.machines.modify s.selected change }

def latest (s : Session) : Nat := s.windows.length - 1

def windowAt (s : Session) (id : Nat) : Window :=
  s.windows.getD id { limit := Window.usualLimit }

/-- Tells a watcher of a step: what it prints, or whether it fails, and the
session after it. -/
def notify (s : Session) :
    Watcher → Event → Except WindowError Unit × String × Session
  | .console, e => (.ok (), e.line ++ "\n", s)
  | .window id, e =>
      let (outcome, w) := (s.windowAt id).record (.ok e.line)
      (outcome, "", { s with windows := s.windows.set id w })

/-- The answer to a step, which is true if an instruction ran. -/
def stepReply : Outcome → Except SessionError Reply
  | .executed _ => .ok (.flag true)
  | .ended => .ok (.flag false)
  | .failed err => .error (.step err)

def step (s : Session) : Response :=
  let (outcome, heard, after) := s.current.step
  let s' := s.update fun _ => after
  match heard with
  | none => { reply := stepReply outcome, session := s' }
  | some (watcher, e) =>
      let (told, printed, s'') := s'.notify watcher e
      match told with
      | .ok () =>
          { reply := stepReply outcome, printed := printed, session := s'' }
      | .error err =>
          { reply := .error (.window err), printed := printed, session := s'' }

def ask (s : Session) (answer : Except SessionError Reply) : Response :=
  { reply := answer, session := s }

def ofFault {α : Type} (reply : α → Reply) :
    Except Fault α → Except SessionError Reply
  | .ok a => .ok (reply a)
  | .error f => .error (.step (.fault f))

def ofText : Except TagError String → Except SessionError Reply
  | .ok t => .ok (.text t)
  | .error e => .error (.noText e)

def attach (s : Session) (w : Option Watcher) : Session :=
  s.update fun watched => { watched with watcher := w }

def perform (s : Session) (c : Command) : Response :=
  let m := s.current.machine
  match c with
  | .step => s.step
  | .register i => s.ask (ofFault (.value ∘ some) (m.register i))
  | .constant ref => s.ask (ofFault (.value ∘ some) (m.constant ref))
  | .value ref => s.ask (ofFault (.value ∘ some) (m.value ref))
  | .result => s.ask (ofFault .value m.result)
  | .setRegister i v =>
      match m.setRegister i v with
      | .ok m' =>
          { reply := .ok .done
            session := s.update fun w => { w with machine := m' } }
      | .error f => s.ask (.error (.step (.fault f)))
  | .registers => s.ask (.ok (.values m.registers))
  | .snapshot => s.ask (ofText m.snapshot)
  | .summary => s.ask (.ok (.text m.summary))
  | .listing => s.ask (ofText m.frame.listing)
  | .isHalted => s.ask (.ok (.flag (m.status = .halted)))
  | .fork =>
      { reply := .ok (.index s.machines.length)
        session := { s with
          machines := s.machines ++ [{ machine := Machine.start s.frame }]
          selected := s.machines.length } }
  | .select i =>
      { reply := .ok (.index i), session := { s with selected := i } }
  | .watchNothing => { reply := .ok .done, session := s.attach none }
  | .watchConsole => { reply := .ok .done, session := s.attach (some .console) }
  | .watchWindow limit =>
      let s' : Session := { s with windows := s.windows ++ [{ limit := limit }] }
      { reply := .ok .done, session := s'.attach (some (.window s'.latest)) }
  | .watchLatest =>
      { reply := .ok .done, session := s.attach (some (.window s.latest)) }
  | .window => s.ask (.ok (.window (s.windowAt s.latest)))
  | .clearWindow =>
      { reply := .ok .done
        session := { s with windows := s.windows.modify s.latest Window.clear } }

end Session

end RegisterVm.Watch
