import Mathlib.Data.List.Forall2
import RegisterVm.Proofs.Atomicity
import RegisterVm.Watch.Session

/-!
# What watchers hear

A machine in a session is stepped and written to, and watchers are attached to
it and taken away, in any order (`Session.serve`). A watcher hears of a step if
it is attached and an instruction ran, and of nothing else: what it hears is the
place of the instruction, the instruction and all registers after it, once for
each such step and in order.

Nothing comes back from a watcher that does not fail, and a window with room
does not. So the machine and its answers are those of a session where nobody is
attached.
-/

namespace RegisterVm

/-- The event tells of the step of a machine that runs the frame. -/
structure Event.Reports (f : Frame) (e : Event) (m : Machine) : Prop where
  pc : e.pc = m.pc
  instruction : f.code[m.pc]? = some e.instruction
  registers : e.registers = m.step.2.registers

theorem Machine.frame_after (m : Machine) (c : Call) :
    (m.after c).frame = m.frame := by
  cases c with
  | step =>
      have hstep := m.step_effect
      rw [after]
      generalize m.step = r at hstep
      cases hstep <;> rfl
  | set index v =>
      obtain ⟨registers, -, hset⟩ := m.after_set index v
      rw [hset]

/-- A step that runs no instruction and does no harm stays in its place. -/
theorem Machine.pc_of_not_ran {m : Machine} (h : m.step.1.ran = false)
    (hs : m.step.2.status ≠ .faulted) :
    m.step.2.pc = m.pc := by
  have hstep := m.step_effect
  generalize m.step = r at hstep h hs
  cases hstep with
  | wrote => cases h
  | operand => exact absurd rfl hs
  | _ => rfl

namespace Watch

/-! ## Requests -/

/-- What can be asked of a session about its machine: a call of the machine, or
another watcher for it. -/
inductive Request where
  | call (c : Call)
  | attach (watcher : Option Watcher)

def Request.call? : Request → Option Call
  | .call c => some c
  | .attach _ => none

/-- The calls among some requests: what is left of them if nobody is ever
attached. -/
def callsAmong (requests : List Request) : List Call :=
  requests.filterMap Request.call?

/-- What one watcher hears among what all of them do. -/
def received (watcher : Watcher) (notices : List (Watcher × Event)) :
    List Event :=
  notices.filterMap fun (w, e) => if w = watcher then some e else none

/-- The machine before each step that runs while `watcher` is attached, where
`attached` is at first. -/
def attended (watcher : Watcher) :
    Option Watcher → Machine → List Request → List Machine
  | _, _, [] => []
  | _, m, .attach attached :: rs => attended watcher attached m rs
  | attached, m, .call (.set index v) :: rs =>
      attended watcher attached (m.after (.set index v)) rs
  | attached, m, .call .step :: rs =>
      let rest := attended watcher attached (m.after .step) rs
      if attached = some watcher ∧ m.step.1.ran = true then m :: rest else rest

/-- The machine and its watcher after a request. -/
def Watched.after (w : Watched) : Request → Watched
  | .call c => { w with machine := w.machine.after c }
  | .attach watcher => { w with watcher := watcher }

def Watched.afterAll (w : Watched) (requests : List Request) : Watched :=
  requests.foldl after w

namespace Session

def respond (s : Session) : Request → Response
  | .call .step => s.perform .step
  | .call (.set index v) => s.perform (.setRegister index v)
  | .attach watcher => { reply := .ok .done, session := s.attach watcher }

/-- Who hears of a request, and what. -/
def heard (s : Session) : Request → List (Watcher × Event)
  | .call .step => s.current.step.2.1.toList
  | _ => []

end Session

/-- What came of some requests: the session after them, the answers to the calls
among them, and what was printed and heard. -/
structure Service where
  session : Session
  replies : List (Except SessionError Reply) := []
  printed : String := ""
  notices : List (Watcher × Event) := []

def Session.serve : Session → List Request → Service
  | s, [] => { session := s }
  | s, r :: rs =>
      let response := s.respond r
      let rest := response.session.serve rs
      { session := rest.session
        replies := (r.call?.map fun _ => response.reply).toList ++ rest.replies
        printed := response.printed ++ rest.printed
        notices := s.heard r ++ rest.notices }

theorem received_append (watcher : Watcher) (ns ns' : List (Watcher × Event)) :
    received watcher (ns ++ ns') = received watcher ns ++ received watcher ns' :=
  List.filterMap_append

theorem received_self (watcher : Watcher) (e : Event) :
    received watcher [(watcher, e)] = [e] := by
  simp [received]

theorem received_other {watcher w : Watcher} (h : w ≠ watcher) (e : Event) :
    received watcher [(w, e)] = [] := by
  simp [received, h]

theorem Watched.machine_afterAll (w : Watched) (requests : List Request) :
    (w.afterAll requests).machine = w.machine.afterAll (callsAmong requests) := by
  induction requests generalizing w with
  | nil => rfl
  | cons r rs ih =>
      cases r with
      | call c => exact ih (w.after (.call c))
      | attach watcher => exact ih (w.after (.attach watcher))

/-! ## What one step lets a watcher hear -/

theorem Watched.received_of_ran {w : Watched} {watcher : Watcher}
    (hattached : w.watcher = some watcher) (hran : w.machine.step.1.ran = true) :
    ∃ e, received watcher w.step.2.1.toList = [e]
      ∧ e.Reports w.machine.frame w.machine := by
  cases hstep : w.machine.step with
  | mk outcome m' =>
      rw [hstep] at hran
      cases outcome with
      | ended | failed => cases hran
      | executed e =>
          obtain ⟨dst, v, -, hc, -, hpc, hregisters, -⟩ :=
            Machine.step_executed hstep
          refine ⟨e, ?_, hpc, hc, ?_⟩
          · simp [Watched.step, hstep, hattached, received]
          · rw [hstep]
            exact hregisters

theorem Watched.received_eq_nil {w : Watched} {watcher : Watcher}
    (h : ¬ (w.watcher = some watcher ∧ w.machine.step.1.ran = true)) :
    received watcher w.step.2.1.toList = [] := by
  cases hstep : w.machine.step with
  | mk outcome m' =>
      cases outcome with
      | ended | failed => simp [Watched.step, hstep, received]
      | executed e =>
          have hother : w.watcher ≠ some watcher := fun heq =>
            h ⟨heq, by rw [hstep]; rfl⟩
          cases hattached : w.watcher with
          | none => simp [Watched.step, hstep, hattached, received]
          | some other =>
              rw [hattached] at hother
              simpa [Watched.step, hstep, hattached, received] using hother

/-! ## Windows with room -/

namespace Window

theorem makeRoom_limit {w w' : Window} (h : w.makeRoom = .ok w') :
    w'.limit = w.limit := by
  rw [makeRoom] at h
  split at h
  · split at h <;> cases h
    rfl
  · cases h
    rfl

/-- A full window with room has a line that it can drop. -/
theorem exists_makeRoom {w : Window} (h : 1 ≤ w.limit) :
    ∃ w', w.makeRoom = .ok w' := by
  rw [makeRoom]
  split
  · rename_i hfull
    cases hlines : w.lines with
    | nil =>
        rw [hlines, List.length_nil] at hfull
        omega
    | cons l rest => exact ⟨_, rfl⟩
  · exact ⟨_, rfl⟩

/-- A window with room takes the line in and keeps its room. -/
theorem record_roomy {w : Window} (h : 1 ≤ w.limit) (l : String) :
    (w.record (.ok l)).1 = .ok () ∧ (w.record (.ok l)).2.limit = w.limit := by
  obtain ⟨w', hroom⟩ := exists_makeRoom (w := { w with total := w.total + 1 }) h
  have hrecord :
      w.record (.ok l) = (.ok (), { w' with lines := w'.lines ++ [l] }) := by
    simp only [record, hroom]
  have hlimit := makeRoom_limit hroom
  rw [hrecord]
  exact ⟨rfl, hlimit⟩

theorem recordAll_append (w : Window) (es es' : List Event) :
    w.recordAll (es ++ es') = (w.recordAll es).recordAll es' :=
  List.foldl_append

end Window

/-! ## Notices reach their watchers -/

/-- What the console shows of some steps. -/
def consoleText (es : List Event) : String :=
  String.join (es.map fun e => e.line ++ "\n")

theorem consoleText_append (es es' : List Event) :
    consoleText (es ++ es') = consoleText es ++ consoleText es' := by
  simp [consoleText]

namespace Session

/-- A session of the one machine `w`, whose windows have room. -/
structure Alone (s : Session) (w : Watched) : Prop where
  machines : s.machines = [w]
  selected : s.selected = 0
  roomy : ∀ window ∈ s.windows, 1 ≤ window.limit

/-- From `s` to `s'` all watchers were told of the notices, and nobody failed;
the machine is then `w`. -/
structure Delivers (s : Session) (notices : List (Watcher × Event))
    (s' : Session) (printed : String) (w : Watched) : Prop where
  alone : s'.Alone w
  windows : ∀ id : Nat, s'.windows[id]?
    = (s.windows[id]?).map (·.recordAll (received (.window id) notices))
  printed : printed = consoleText (received .console notices)

theorem Delivers.nothing {s s' : Session} {w : Watched} (h : s'.Alone w)
    (hwindows : s'.windows = s.windows) :
    s.Delivers [] s' "" w where
  alone := h
  windows id := by
    rw [hwindows]
    exact Option.map_id'.symm
  printed := rfl

theorem Delivers.trans {s s₁ s₂ : Session} {ns ns' : List (Watcher × Event)}
    {printed printed' : String} {w w' : Watched}
    (h : s.Delivers ns s₁ printed w) (h' : s₁.Delivers ns' s₂ printed' w') :
    s.Delivers (ns ++ ns') s₂ (printed ++ printed') w' where
  alone := h'.alone
  windows id := by
    rw [h'.windows, h.windows, Option.map_map, received_append]
    congr 1
    funext window
    exact (window.recordAll_append _ _).symm
  printed := by rw [h.printed, h'.printed, received_append, consoleText_append]

theorem notify_window (s : Session) (id : Nat) (e : Event) :
    s.notify (.window id) e = (((s.windowAt id).record (.ok e.line)).1, "",
      { s with windows := s.windows.set id ((s.windowAt id).recordAll [e]) }) :=
  rfl

/-- The answer to a call, from the machine alone. -/
def answer (m : Machine) : Call → Except SessionError Reply
  | .step => stepReply m.step.1
  | .set index v => ofFault (fun _ => .done) (m.setRegister index v)

def answers : Machine → List Call → List (Except SessionError Reply)
  | _, [] => []
  | m, c :: cs => answer m c :: answers (m.after c) cs

namespace Alone

section Requests

variable {s : Session} {w : Watched} (h : s.Alone w)

include h

theorem current : s.current = w := by
  rw [Session.current, h.machines, h.selected]
  rfl

theorem update (change : Watched → Watched) :
    (s.update change).Alone (change w) where
  machines := by
    simp only [Session.update, h.machines, h.selected]
    rfl
  selected := h.selected
  roomy := h.roomy

theorem windowAt_roomy (id : Nat) : 1 ≤ (s.windowAt id).limit := by
  rw [windowAt, List.getD_eq_getElem?_getD]
  cases hwindow : s.windows[id]? with
  | none => decide
  | some window => exact h.roomy window (List.mem_of_getElem? hwindow)

theorem notify (watcher : Watcher) (e : Event) : (s.notify watcher e).1 = .ok ()
    ∧ s.Delivers [(watcher, e)] (s.notify watcher e).2.2
      (s.notify watcher e).2.1 w := by
  cases watcher with
  | console =>
      refine ⟨rfl, h, fun id => Option.map_id'.symm, ?_⟩
      simp [Session.notify, received, consoleText]
  | window id =>
      obtain ⟨hok, hlimit⟩ := Window.record_roomy (h.windowAt_roomy id) e.line
      rw [notify_window]
      refine ⟨hok, ⟨h.machines, h.selected, fun window hmem => ?_⟩,
        fun id' => ?_, rfl⟩
      · rcases List.mem_or_eq_of_mem_set hmem with hold | heq
        · exact h.roomy window hold
        · rw [heq]
          exact hlimit ▸ h.windowAt_roomy id
      · rw [List.getElem?_set]
        by_cases hid : id = id'
        · subst hid
          rw [if_pos rfl, received_self]
          split
          · rename_i hlt
            rw [windowAt, List.getD_eq_getElem?_getD, List.getElem?_eq_getElem hlt]
            rfl
          · rename_i hge
            rw [List.getElem?_eq_none (Nat.not_lt.mp hge)]
            rfl
        · rw [if_neg hid, received_other (by simpa using hid)]
          exact Option.map_id'.symm

/-! ## Every request -/

theorem respond_step : (s.respond (.call .step)).reply = answer w.machine .step
    ∧ s.Delivers (s.heard (.call .step)) (s.respond (.call .step)).session
      (s.respond (.call .step)).printed (w.after (.call .step)) := by
  have hafter : (s.update fun _ => w.step.2.2).Alone (w.after (.call .step)) :=
    h.update _
  have hrespond : s.respond (.call .step) = s.step := rfl
  rw [hrespond, Session.step, heard, h.current]
  cases hheard : w.step.2.1 with
  | none =>
    simp only [hheard]
    refine ⟨rfl, .nothing hafter rfl⟩
  | some notice =>
    obtain ⟨watcher, e⟩ := notice
    obtain ⟨hok, hdelivers⟩ := hafter.notify watcher e
    simp only [hheard, hok]
    refine ⟨rfl, hdelivers.alone, hdelivers.windows, hdelivers.printed⟩

theorem respond_set (index : Int) (v : Value) :
    (s.respond (.call (.set index v))).reply = answer w.machine (.set index v)
      ∧ s.Delivers (s.heard (.call (.set index v)))
        (s.respond (.call (.set index v))).session
        (s.respond (.call (.set index v))).printed
        (w.after (.call (.set index v))) := by
  simp only [respond, perform, answer, h.current, heard, Watched.after,
    Machine.after]
  cases hset : w.machine.setRegister index v with
  | ok m' => exact ⟨rfl, .nothing (h.update _) rfl⟩
  | error f => exact ⟨rfl, .nothing h rfl⟩

theorem respond (r : Request) :
    (∀ c, r = .call c → (s.respond r).reply = answer w.machine c)
    ∧ s.Delivers (s.heard r) (s.respond r).session (s.respond r).printed
      (w.after r) := by
  cases r with
  | call c =>
      cases c with
      | step =>
          obtain ⟨hreply, hdelivers⟩ := h.respond_step
          exact ⟨fun c hc => by cases hc; exact hreply, hdelivers⟩
      | set index v =>
          obtain ⟨hreply, hdelivers⟩ := h.respond_set index v
          exact ⟨fun c hc => by cases hc; exact hreply, hdelivers⟩
  | attach watcher =>
      refine ⟨?_, .nothing (h.update _) rfl⟩
      rintro c ⟨⟩

end Requests

/-- The answers are those of the machine alone, and all notices reach their
watchers. -/
theorem serve (requests : List Request) :
    ∀ {s : Session} {w : Watched}, s.Alone w →
    (s.serve requests).replies = answers w.machine (callsAmong requests)
      ∧ s.Delivers (s.serve requests).notices (s.serve requests).session
        (s.serve requests).printed (w.afterAll requests) := by
  induction requests with
  | nil => exact fun h => ⟨rfl, .nothing h rfl⟩
  | cons r rs ih =>
      intro s w h
      obtain ⟨hreply, hdelivers⟩ := h.respond r
      obtain ⟨hreplies, hrest⟩ := ih hdelivers.alone
      refine ⟨?_, hdelivers.trans hrest⟩
      cases r with
      | call c =>
          rw [Session.serve, hreplies, hreply c rfl]
          rfl
      | attach watcher => exact hreplies

/-! ## What is heard -/

/-- A watcher hears of the steps that run while it is attached, and what it
hears is right. -/
theorem received_serve (watcher : Watcher) (requests : List Request)
    {f : Frame} :
    ∀ {s : Session} {w : Watched}, s.Alone w → w.machine.frame = f →
      List.Forall₂ (Event.Reports f) (received watcher (s.serve requests).notices)
        (attended watcher w.watcher w.machine requests) := by
  induction requests with
  | nil => exact fun _ _ => .nil
  | cons r rs ih =>
      intro s w h hf
      have halone := (h.respond r).2.alone
      rw [Session.serve]
      simp only [received_append]
      cases r with
      | attach attached => exact ih halone hf
      | call c =>
          have hrest := ih halone ((w.machine.frame_after c).trans hf)
          cases c with
          | set index v => exact hrest
          | step =>
              rw [attended, heard, h.current]
              split
              · rename_i hhears
                obtain ⟨e, hreceived, hreports⟩ :=
                  Watched.received_of_ran hhears.1 hhears.2
                rw [hreceived]
                exact .cons (hf ▸ hreports) hrest
              · rename_i hdeaf
                rw [Watched.received_eq_nil hdeaf]
                exact hrest

end Alone

end Session

/-! ## A watcher from the start to the end -/

theorem callsAmong_map_call (calls : List Call) :
    callsAmong (calls.map .call) = calls := by
  rw [callsAmong, List.filterMap_map]
  exact List.filterMap_some

/-- The steps that run, up to a machine that is not faulted, are at one place
after the other. -/
theorem pcs_attended (watcher : Watcher) (calls : List Call) {m : Machine}
    (hs : (m.afterAll calls).status ≠ .faulted) :
    ∃ k, (m.afterAll calls).pc = m.pc + k
      ∧ (attended watcher (some watcher) m (calls.map .call)).map (·.pc)
        = List.range' m.pc k := by
  induction calls generalizing m with
  | nil => exact ⟨0, rfl, rfl⟩
  | cons c cs ih =>
      obtain ⟨k, hpc, hpcs⟩ := ih (m := m.after c) hs
      cases c with
      | set index v =>
          obtain ⟨registers, -, hset⟩ := m.after_set index v
          have hsame : (m.after (.set index v)).pc = m.pc := by rw [hset]
          rw [hsame] at hpc hpcs
          exact ⟨k, hpc, hpcs⟩
      | step =>
          have hlive : m.step.2.status ≠ .faulted := fun hdead =>
            hs (Machine.faulted_afterAll hdead cs)
          rw [List.map_cons, attended]
          cases hran : m.step.1.ran with
          | true =>
              have hnext : (m.after .step).pc = m.pc + 1 :=
                Machine.pc_of_ran hran
              rw [hnext] at hpc hpcs
              refine ⟨k + 1, hpc.trans (by omega), ?_⟩
              rw [if_pos ⟨rfl, rfl⟩, List.map_cons, hpcs, List.range'_succ]
          | false =>
              have hsame : (m.after .step).pc = m.pc :=
                Machine.pc_of_not_ran hran hlive
              rw [hsame] at hpc hpcs
              exact ⟨k, hpc, by simpa using hpcs⟩

theorem map_eq_of_forall₂ {α β γ : Type} {r : α → β → Prop} {xs : List α}
    {ys : List β} (h : List.Forall₂ r xs ys) {g : α → γ} {g' : β → γ}
    (hr : ∀ x y, r x y → g x = g' y) :
    xs.map g = ys.map g' := by
  have hmaps : List.Forall₂ Eq (xs.map g) (ys.map g') := by
    rw [List.forall₂_map_left_iff, List.forall₂_map_right_iff]
    exact h.imp hr
  exact List.forall₂_eq_eq_eq ▸ hmaps

/-- Events in the order of the code tell of all of it. -/
theorem instructions_of_pcs {f : Frame} {es : List Event} {ms : List Machine}
    (h : List.Forall₂ (Event.Reports f) es ms)
    (hpcs : ms.map (·.pc) = List.range f.code.length) :
    es.map (·.pc) = List.range f.code.length
      ∧ es.map (·.instruction) = f.code := by
  refine ⟨(map_eq_of_forall₂ h fun e m hr => hr.pc).trans hpcs, ?_⟩
  have hsome : (es.map (·.instruction)).map some = f.code.map some :=
    calc (es.map (·.instruction)).map some
        = ms.map fun m => f.code[m.pc]? := by
          rw [List.map_map]
          exact map_eq_of_forall₂ h fun e m hr => hr.instruction.symm
      _ = (ms.map (·.pc)).map fun pc => f.code[pc]? := by rw [List.map_map]; rfl
      _ = (List.range f.code.length).map fun pc => f.code[pc]? := by rw [hpcs]
      _ = f.code.map some := by
          refine List.ext_getElem (by simp) fun i hi hi' => ?_
          simp
  exact (List.map_inj_right fun _ _ => Option.some.inj).mp hsome

/-- Whatever is done to a machine, and whoever is attached to it for a while: as
long as no watcher fails, the machine and its answers are those of a machine
that nobody watches. Each watcher hears once of every step that ran while it was
attached, and of nothing else: the place, the instruction and the registers
after it. All windows hold and the console shows what they heard. A watcher that
is attached from the start to the end of a run hears of the whole code in
order. -/
theorem serve_watched (f : Frame) (windows : List Window)
    (hroom : ∀ window ∈ windows, 1 ≤ window.limit) (requests : List Request) :
    ∃ s run bare, s = { Session.start f with windows := windows }
      ∧ run = s.serve requests ∧ bare = s.serve ((callsAmong requests).map .call)
      ∧ run.session.current.machine = bare.session.current.machine
      ∧ run.replies = bare.replies
      ∧ (∀ watcher, List.Forall₂ (Event.Reports f) (received watcher run.notices)
        (attended watcher none (Machine.start f) requests))
      ∧ (∀ id : Nat, run.session.windows[id]?
        = (windows[id]?).map (·.recordAll (received (.window id) run.notices)))
      ∧ run.printed = consoleText (received .console run.notices)
      ∧ ∀ watcher (calls : List Call),
        requests = .attach (some watcher) :: calls.map .call →
        run.session.current.machine.status = .halted →
          (received watcher run.notices).map (·.pc) = List.range f.code.length
            ∧ (received watcher run.notices).map (·.instruction) = f.code := by
  have halone : ({ Session.start f with windows := windows } : Session).Alone
      { machine := Machine.start f } :=
    ⟨rfl, rfl, hroom⟩
  obtain ⟨hreplies, hdelivers⟩ := Session.Alone.serve requests halone
  obtain ⟨hreplies', hdelivers'⟩ :=
    Session.Alone.serve ((callsAmong requests).map .call) halone
  have hreceived := fun watcher =>
    Session.Alone.received_serve watcher requests halone rfl
  have hmachine := congrArg Watched.machine hdelivers.alone.current
  rw [Watched.machine_afterAll] at hmachine
  refine ⟨_, _, _, rfl, rfl, rfl, ?_, ?_, hreceived, hdelivers.windows,
    hdelivers.printed, ?_⟩
  · rw [hmachine, hdelivers'.alone.current, Watched.machine_afterAll,
      callsAmong_map_call]
  · rw [hreplies, hreplies', callsAmong_map_call]
  · rintro watcher calls rfl hhalted
    have hfinal : callsAmong (.attach (some watcher) :: calls.map .call)
        = calls := callsAmong_map_call calls
    rw [hmachine, hfinal] at hhalted
    have hprogress := (Machine.Progress.start f).afterAll calls
    obtain ⟨k, hpc, hpcs⟩ :=
      pcs_attended watcher calls (m := Machine.start f) (by simp [hhalted])
    have hk : k = f.code.length := by
      rw [hprogress.at_end hhalted] at hpc
      exact (hpc.trans (Nat.zero_add k)).symm
    refine instructions_of_pcs (hreceived watcher) ?_
    rw [List.range_eq_range', ← hk]
    exact hpcs

/-- A window with room for one line hears of both instructions. -/
theorem serve_watched_doubling : ∃ run : Service,
    run = ({ Session.start Machine.doubling with
        windows := [{ limit := 1 }] } : Session).serve
      [.attach (some (.window 0)), .call .step, .call .step, .call .step]
    ∧ run.session.current.machine.status = .halted
    ∧ (received (.window 0) run.notices).map (·.pc) = [0, 1]
    ∧ (received (.window 0) run.notices).map (·.instruction)
      = [.loadConstant 0 (-1), .add 0 0 0] := by
  obtain ⟨s, run, bare, rfl, rfl, rfl, hmachine, -, -, -, -, hwhole⟩ :=
    serve_watched Machine.doubling [{ limit := 1 }] (by decide)
      [.attach (some (.window 0)), .call .step, .call .step, .call .step]
  have hhalted :=
    (congrArg Machine.status hmachine).trans (by rfl : _ = Status.halted)
  obtain ⟨hpcs, hinstructions⟩ :=
    hwhole (.window 0) [.step, .step, .step] rfl hhalted
  exact ⟨_, rfl, hhalted, hpcs, hinstructions⟩

end Watch

end RegisterVm
