import QuickBeam.Native.SideEffects

/-!
# The order of side effects

When the tasks of the calls about one socket or channel act in the order of their start, the frames
of each socket are written in the order of the calls, and each member of a channel hears the posts
of a sender in their order, each once (`inOrder`).  Nothing in the runtime makes the tasks keep that
order (`frames_swapped`).
-/

namespace QuickBeam.Native

open QuickBeam.Lib

variable {α : Type}

/-! ### What is under way -/

def Relay.toSocket (socket : ℕ) : Relay α → Option (Call α)
  | .ws call => if call.lane = .socket socket then some call else none
  | .broadcast _ => none

def Post.isFrom (sender : Pid) (channel : String) (post : Post α) : Bool :=
  post.sender = sender ∧ post.channel = channel

def Relay.post (sender : Pid) (channel : String) : Relay α → Option (Post α)
  | .ws _ => none
  | .broadcast post => if post.isFrom sender channel then some post else none

def Call.toPost (sender : Pid) (channel : String) : Call α → Option (Post α)
  | .post name message => if name = channel then some ⟨sender, channel, message⟩ else none
  | _ => none

/-- The post that a task will still send to a receiver. -/
def Task.owes (sender : Pid) (channel : String) (receiver : Pid) (task : Task α) :
    Option (Post α) :=
  if ∀ targets ∈ task.targets, receiver ∈ targets then task.call.toPost sender channel else none

namespace Node

/-- The calls about a socket, in the order in which they will arrive. -/
def toSocket (n : Node α) (socket : ℕ) : List (Call α) :=
  n.casts socket ++ n.mailbox.filterMap (Relay.toSocket socket) ++
    (n.tasks.map Task.call).filter (fun call => call.lane = .socket socket) ++
    n.requests.filter fun call => call.lane = .socket socket

def received (n : Node α) (sender : Pid) (channel : String) : List (Post α) :=
  n.seen.filter (Post.isFrom sender channel) ++ n.queue.filter (Post.isFrom sender channel) ++
    n.dispatches.filter (Post.isFrom sender channel) ++
    n.mailbox.filterMap (Relay.post sender channel)

def owed (n : Node α) (sender : Pid) (channel : String) (receiver : Pid) : List (Post α) :=
  n.tasks.filterMap (Task.owes sender channel receiver) ++
    n.requests.filterMap (Call.toPost sender channel)

def posts (n : Node α) (sender : Pid) (channel : String) : List (Post α) :=
  n.calls.filterMap (Call.toPost sender channel)

def callsTo (n : Node α) (socket : ℕ) : List (Call α) :=
  n.calls.filter fun call => call.lane = .socket socket

end Node

namespace System

/-- The posts of a sender on a channel, as far as they have reached a receiver or will. -/
def toMember (s : System α) (sender : Pid) (channel : String) (receiver : Pid) : List (Post α) :=
  (s.nodes receiver).received sender channel ++ (s.nodes sender).owed sender channel receiver

structure InOrder (s : System α) : Prop where
  /-- The frames written are the first calls about the socket, and the others are to come. -/
  frames : ∀ p socket,
    (s.nodes p).callsTo socket = (s.nodes p).written socket ++ (s.nodes p).toSocket socket
  /-- Nothing comes after a close. -/
  closeLast : ∀ p socket, ((s.nodes p).callsTo socket).Pairwise fun first _ => first.isClose = false
  /-- A member hears no post twice, and in their order. -/
  heard : ∀ sender channel receiver, receiver ≠ sender →
    (s.toMember sender channel receiver).Sublist ((s.nodes sender).posts sender channel)
  /-- A member misses none that is made after it joined. -/
  complete : ∀ sender channel receiver, receiver ≠ sender →
    ∀ before, s.joined channel receiver = some before →
      ∃ later, (s.nodes sender).calls = before sender ++ later ∧
        (later.filterMap (Call.toPost sender channel)).IsSuffix
          (s.toMember sender channel receiver)

/-- A task waits for the earlier tasks about the same socket or channel, nobody is twice in the
members that a post looks up, and no wait takes a dispatch. -/
def Scheduled (s : System α) : Event α → Prop
  | .run p i => ∀ task ∈ (s.nodes p).tasks[i]?, ∀ earlier ∈ (s.nodes p).tasks.take i,
    earlier.call.lane ≠ task.call.lane
  | .getMembers p i => ∀ task ∈ (s.nodes p).tasks[i]?, ∀ channel,
    task.call.lane = .channel channel → (s.members channel).Nodup
  | .start p i => ∀ post ∈ (s.nodes p).dispatches[i]?, ∀ earlier ∈ (s.nodes p).dispatches.take i,
    earlier.isFrom post.sender post.channel = false
  | .drop _ => False
  | _ => True

structure Invariant (s : System α) : Prop extends InOrder s where
  closes : ∀ p, ∀ call ∈ (s.nodes p).calls, call.isClose = true →
    ∃ socket ∈ (s.nodes p).closing, call.lane = .socket socket
  members : ∀ channel p before, s.joined channel p = some before → p ∈ s.members channel
  distinct : ∀ p, ∀ task ∈ (s.nodes p).tasks, ∀ targets ∈ task.targets, targets.Nodup

theorem invariant_initial (members : String → List Pid) :
    Invariant (initial members : System α) where
  frames := fun _ _ => rfl
  closeLast := fun _ _ => .nil
  heard := fun _ _ _ _ => .refl _
  complete := by
    intro sender channel receiver _ before hjoined
    simp only [initial, Option.ite_none_right_eq_some, Option.some.injEq] at hjoined
    rw [← hjoined.2]
    exact ⟨[], rfl, List.nil_suffix⟩
  closes := fun _ _ hin => absurd hin List.not_mem_nil
  members := by
    intro channel p before hjoined
    simp only [initial, Option.ite_none_right_eq_some] at hjoined
    exact hjoined.1
  distinct := fun _ _ hin => absurd hin List.not_mem_nil

/-! ### Steps that only move things along -/

/-- Two states that differ in where things are, not in their order. -/
structure Keeps (s s' : System α) : Prop where
  calls : ∀ p, (s'.nodes p).calls = (s.nodes p).calls
  closing : ∀ p, (s'.nodes p).closing = (s.nodes p).closing
  frames : ∀ p socket, (s'.nodes p).written socket ++ (s'.nodes p).toSocket socket =
    (s.nodes p).written socket ++ (s.nodes p).toSocket socket
  heard : ∀ sender channel receiver, receiver ≠ sender →
    (s'.toMember sender channel receiver).Sublist (s.toMember sender channel receiver)
  complete : ∀ sender channel receiver, receiver ≠ sender → receiver ∈ s.members channel →
    s'.toMember sender channel receiver = s.toMember sender channel receiver
  members : s'.members = s.members
  joined : s'.joined = s.joined
  distinct : (∀ p, ∀ task ∈ (s.nodes p).tasks, ∀ targets ∈ task.targets, targets.Nodup) →
    ∀ p, ∀ task ∈ (s'.nodes p).tasks, ∀ targets ∈ task.targets, targets.Nodup

theorem Invariant.keeps {s s' : System α} (h : Invariant s) (hkeeps : Keeps s s') :
    Invariant s' where
  frames := by
    intro p socket
    rw [Node.callsTo, hkeeps.calls, hkeeps.frames]
    exact h.frames p socket
  closeLast := by
    intro p socket
    rw [Node.callsTo, hkeeps.calls]
    exact h.closeLast p socket
  heard := by
    intro sender channel receiver hne
    rw [Node.posts, hkeeps.calls]
    exact (hkeeps.heard sender channel receiver hne).trans (h.heard sender channel receiver hne)
  complete := by
    intro sender channel receiver hne before hjoined
    rw [hkeeps.joined] at hjoined
    rw [hkeeps.calls, hkeeps.complete sender channel receiver hne (h.members _ _ _ hjoined)]
    exact h.complete sender channel receiver hne before hjoined
  closes := by
    intro p call hin hclose
    rw [hkeeps.calls] at hin
    rw [hkeeps.closing]
    exact h.closes p call hin hclose
  members := by
    intro channel p before hjoined
    rw [hkeeps.joined] at hjoined
    rw [hkeeps.members]
    exact h.members channel p before hjoined
  distinct := hkeeps.distinct h.distinct

structure Moves (n n' : Node α) : Prop where
  calls : n'.calls = n.calls
  closing : n'.closing = n.closing
  frames : ∀ socket, n'.written socket ++ n'.toSocket socket = n.written socket ++ n.toSocket socket
  received : ∀ sender channel, n'.received sender channel = n.received sender channel
  owed : ∀ sender channel receiver, n'.owed sender channel receiver = n.owed sender channel receiver
  distinct : (∀ task ∈ n.tasks, ∀ targets ∈ task.targets, targets.Nodup) →
    ∀ task ∈ n'.tasks, ∀ targets ∈ task.targets, targets.Nodup

variable {f : Node α → Node α} {p : Pid} {s : System α}

theorem Moves.keeps (hmoves : Moves (s.nodes p) (f (s.nodes p))) : Keeps s (s.modify p f) := by
  have hnodes : ∀ q, Moves (s.nodes q) ((s.modify p f).nodes q) := by
    intro q
    by_cases hq : q = p
    · rw [hq, modify_self]
      exact hmoves
    · rw [modify_of_ne s hq]
      exact ⟨rfl, rfl, fun _ => rfl, fun _ _ => rfl, fun _ _ _ => rfl, id⟩
  have hmember : ∀ sender channel receiver,
      (s.modify p f).toMember sender channel receiver = s.toMember sender channel receiver := by
    intro sender channel receiver
    rw [toMember, (hnodes receiver).received, (hnodes sender).owed]
    rfl
  exact {
    calls := fun q => (hnodes q).calls
    closing := fun q => (hnodes q).closing
    frames := fun q => (hnodes q).frames
    heard := by
      intro sender channel receiver _
      rw [hmember]
    complete := fun sender channel receiver _ _ => hmember sender channel receiver
    members := rfl
    joined := rfl
    distinct := fun hdistinct q => (hnodes q).distinct (hdistinct q) }

variable {i : ℕ} {β : Type}

theorem split_at {l : List β} {x : β} (h : l[i]? = some x) :
    l = l.take i ++ x :: l.drop (i + 1) := by
  obtain ⟨hi, rfl⟩ := List.getElem?_eq_some_iff.1 h
  rw [← List.drop_eq_getElem_cons hi, List.take_append_drop]

section Moves

variable {n n' : Node α}

theorem moves_dispatch (hstep : n.dispatch = some n') : Moves n n' := by
  unfold Node.dispatch at hstep
  split at hstep
  · cases hstep
  · rename_i call requests hrequests
    rw [← Option.some.inj hstep]
    exact {
      calls := rfl
      closing := rfl
      frames := by
        intro socket
        simp only [Node.toSocket, hrequests, List.map_append, List.filter_append,
          List.append_assoc, List.map_cons, List.map_nil]
        rw [← List.filter_append]
        rfl
      received := fun _ _ => rfl
      owed := by
        intro sender channel receiver
        have howes : Task.owes sender channel receiver ⟨call, none⟩ = call.toPost sender channel :=
          if_pos (fun _ hnone => nomatch hnone)
        rw [Node.owed, Node.owed, hrequests, List.filterMap_append, List.append_assoc]
        congr 1
        rw [List.filterMap_cons, List.filterMap_cons, howes]
        cases call.toPost sender channel <;> rfl
      distinct := by
        intro hdistinct task hin
        rcases List.mem_append.1 hin with hin | hin
        · exact hdistinct task hin
        · rw [List.mem_singleton.1 hin]
          intro targets hnone
          cases hnone }

variable {socket : ℕ}

theorem moves_write (hstep : n.write socket = some n') : Moves n n' := by
  unfold Node.write at hstep
  split at hstep
  · cases hstep
  · rename_i call casts hcasts
    rw [← Option.some.inj hstep]
    exact {
      calls := rfl
      closing := rfl
      frames := by
        intro other
        by_cases hsame : other = socket
        · rw [hsame]
          simp only [Node.toSocket, Function.update_self, hcasts, List.append_assoc,
            List.cons_append, List.nil_append]
        · simp only [Node.toSocket, Function.update_of_ne hsame]
      received := fun _ _ => rfl
      owed := fun _ _ _ => rfl
      distinct := id }

theorem moves_handle (hstep : n.handle = some n') : Moves n n' := by
  unfold Node.handle at hstep
  split at hstep
  · cases hstep
  · rename_i call mailbox hmailbox
    have hreceived : ∀ sender channel, n.mailbox.filterMap (Relay.post sender channel) =
        mailbox.filterMap (Relay.post sender channel) := by
      intro sender channel
      rw [hmailbox]
      rfl
    split at hstep
    · rename_i socket hlane
      rw [← Option.some.inj hstep]
      exact {
        calls := rfl
        closing := rfl
        frames := by
          intro other
          by_cases hsame : other = socket
          · rw [hsame]
            simp only [Node.toSocket, Function.update_self, hmailbox, List.filterMap_cons,
              Relay.toSocket, hlane, if_true, List.append_assoc, List.cons_append, List.nil_append]
          · have hne : Lane.socket socket ≠ .socket other := by
              intro heq
              cases heq
              exact hsame rfl
            simp only [Node.toSocket, Function.update_of_ne hsame, hmailbox, List.filterMap_cons,
              Relay.toSocket, hlane, if_neg hne]
        received := by
          intro sender channel
          simp only [Node.received, hreceived]
        owed := fun _ _ _ => rfl
        distinct := id }
    · rename_i channel hlane
      rw [← Option.some.inj hstep]
      exact {
        calls := rfl
        closing := rfl
        frames := by
          intro socket
          have hne : Lane.channel channel ≠ .socket socket := nofun
          simp only [Node.toSocket, hmailbox, List.filterMap_cons, Relay.toSocket, hlane,
            if_neg hne]
        received := by
          intro sender channel
          simp only [Node.received, hreceived]
        owed := fun _ _ _ => rfl
        distinct := id }
  · rename_i post mailbox hmailbox
    rw [← Option.some.inj hstep]
    exact {
      calls := rfl
      closing := rfl
      frames := by
        intro socket
        simp only [Node.toSocket, hmailbox, List.filterMap_cons, Relay.toSocket]
      received := by
        intro sender channel
        by_cases hfrom : post.isFrom sender channel = true
        · simp [Node.received, hmailbox, Relay.post, hfrom]
        · simp [Node.received, hmailbox, Relay.post, hfrom]
      owed := fun _ _ _ => rfl
      distinct := id }

theorem moves_take (hstep : n.take = some n') : Moves n n' := by
  unfold Node.take at hstep
  split at hstep
  · cases hstep
  · rename_i post queue hqueue
    rw [← Option.some.inj hstep]
    exact {
      calls := rfl
      closing := rfl
      frames := fun _ => rfl
      received := by
        intro sender channel
        by_cases hfrom : post.isFrom sender channel = true
        · simp [Node.received, hqueue, hfrom]
        · simp [Node.received, hqueue, hfrom]
      owed := fun _ _ _ => rfl
      distinct := id }

/-- A task that waits for the earlier ones about its channel keeps their order. -/
theorem moves_start {i : ℕ} (hok : ∀ post ∈ n.dispatches[i]?, ∀ earlier ∈ n.dispatches.take i,
    earlier.isFrom post.sender post.channel = false) (hstep : n.start i = some n') :
    Moves n n' := by
  unfold Node.start at hstep
  split at hstep
  · cases hstep
  · rename_i post hpost
    rw [← Option.some.inj hstep]
    exact {
      calls := rfl
      closing := rfl
      frames := fun _ => rfl
      received := by
        intro sender channel
        have hsplit : n.dispatches.filter (Post.isFrom sender channel) =
            (n.dispatches.take i).filter (Post.isFrom sender channel) ++
              (post :: n.dispatches.drop (i + 1)).filter (Post.isFrom sender channel) := by
          rw [← List.filter_append, ← split_at hpost]
        by_cases hfrom : post.isFrom sender channel = true
        · have hnone : (n.dispatches.take i).filter (Post.isFrom sender channel) = [] := by
            refine List.filter_eq_nil_iff.2 ?_
            intro earlier hin
            have hearlier := hok post hpost earlier hin
            obtain ⟨hsender, hchannel⟩ := of_decide_eq_true hfrom
            rw [hsender, hchannel] at hearlier
            exact Bool.eq_false_iff.1 hearlier
          simp [Node.received, hsplit, hnone, hfrom]
        · simp [Node.received, hsplit, hfrom]
      owed := fun _ _ _ => rfl
      distinct := id }

/-- The task of a call about a socket hands it on before any later one about the socket. -/
theorem moves_send {i : ℕ} {call : Call α} {targets : Option (List Pid)}
    (htask : n.tasks[i]? = some ⟨call, targets⟩) (hlane : call.lane = .socket socket)
    (hok : ∀ earlier ∈ n.tasks.take i, earlier.call.lane ≠ call.lane) :
    Moves n ((n.setTask i []).receive (.ws call)) where
  calls := rfl
  closing := rfl
  frames := by
    intro other
    have hsplit : (n.tasks.map Task.call).filter (fun call => call.lane = .socket other) =
        ((n.tasks.take i).map Task.call).filter (fun call => call.lane = .socket other) ++
          (call :: (n.tasks.drop (i + 1)).map Task.call).filter
            (fun call => call.lane = .socket other) := by
      rw [← List.filter_append]
      conv_lhs => rw [split_at htask, List.map_append, List.map_cons]
    by_cases hsame : call.lane = .socket other
    · have hnone : ((n.tasks.take i).map Task.call).filter
          (fun call => call.lane = .socket other) = [] := by
        refine List.filter_eq_nil_iff.2 ?_
        intro earlier hin
        obtain ⟨task, htake, rfl⟩ := List.mem_map.1 hin
        rw [← hsame]
        simpa using hok task htake
      simp [Node.toSocket, Node.setTask, Node.receive, hsplit, hnone, hsame, Relay.toSocket,
        -List.map_take, -List.map_drop]
    · simp [Node.toSocket, Node.setTask, Node.receive, hsplit, hsame, Relay.toSocket,
        -List.map_take, -List.map_drop]
  received := by
    intro sender channel
    simp [Node.received, Node.setTask, Node.receive, Relay.post]
  owed := by
    intro sender channel receiver
    have hpost : call.toPost sender channel = none := by
      cases call with
      | post name message => cases hlane
      | send socket payload => rfl
      | close socket code reason => rfl
    have hnone : Task.owes sender channel receiver ⟨call, targets⟩ = none := by
      rw [Task.owes, hpost, ite_self]
    have hsplit : n.tasks.filterMap (Task.owes sender channel receiver) =
        (n.tasks.take i).filterMap (Task.owes sender channel receiver) ++
          (n.tasks.drop (i + 1)).filterMap (Task.owes sender channel receiver) := by
      conv_lhs => rw [split_at htask, List.filterMap_append, List.filterMap_cons, hnone]
    simp [Node.owed, Node.setTask, Node.receive, hsplit]
  distinct := by
    intro hdistinct task hin
    refine hdistinct task ?_
    rcases List.mem_append.1 hin with hin | hin
    · rw [List.append_nil] at hin
      exact List.mem_of_mem_take hin
    · exact List.mem_of_mem_drop hin

end Moves

/-! ### The posts of a task -/

section Posts

variable {n : Node α} {i : ℕ} {name : String} {message : α} {targets : Option (List Pid)}

theorem toSocket_setTask (htask : n.tasks[i]? = some ⟨.post name message, targets⟩)
    (left : List Pid) (socket : ℕ) :
    (n.setTask i (taskOf (.post name message) left)).toSocket socket = n.toSocket socket := by
  have hne : (Call.post name message).lane ≠ .socket socket := nofun
  have hold : (n.tasks.map Task.call).filter (fun call => call.lane = .socket socket) =
      ((n.tasks.take i).map Task.call).filter (fun call => call.lane = .socket socket) ++
        ((n.tasks.drop (i + 1)).map Task.call).filter (fun call => call.lane = .socket socket) := by
    conv_lhs => rw [split_at htask]
    simp [hne, -List.map_take, -List.map_drop]
  cases left with
  | nil => simp [Node.toSocket, Node.setTask, taskOf, hold, -List.map_take, -List.map_drop]
  | cons target left =>
    simp [Node.toSocket, Node.setTask, taskOf, hold, hne, -List.map_take, -List.map_drop]

theorem owes_post (sender : Pid) (channel : String) (receiver : Pid) (left : List Pid) :
    (taskOf (.post name message : Call α) left).filterMap (Task.owes sender channel receiver) =
      if receiver ∈ left ∧ name = channel then [⟨sender, channel, message⟩] else [] := by
  cases left with
  | nil => simp [taskOf]
  | cons target left =>
    by_cases hin : receiver ∈ target :: left
    · by_cases hname : name = channel
      · simp only [taskOf, List.filterMap_cons, List.filterMap_nil, Task.owes,
          Option.mem_some_iff, forall_eq', hin, if_true, Call.toPost, hname, and_self]
      · simp only [taskOf, List.filterMap_cons, List.filterMap_nil, Task.owes,
          Option.mem_some_iff, forall_eq', hin, if_true, Call.toPost, hname, and_false, if_false]
    · simp only [taskOf, List.filterMap_cons, List.filterMap_nil, Task.owes,
        Option.mem_some_iff, forall_eq', hin, if_false, false_and]

theorem distinct_setTask (left : List Pid) (hleft : left.Nodup)
    (hdistinct : ∀ task ∈ n.tasks, ∀ targets ∈ task.targets, targets.Nodup) :
    ∀ task ∈ (n.setTask i (taskOf (.post name message) left)).tasks, ∀ targets ∈ task.targets,
      targets.Nodup := by
  intro task hin
  rcases List.mem_append.1 hin with hin | hin
  · rcases List.mem_append.1 hin with hin | hin
    · exact hdistinct task (List.mem_of_mem_take hin)
    · cases left with
      | nil => cases hin
      | cons target left =>
        rw [List.mem_singleton.1 hin]
        intro targets htargets
        rw [← Option.mem_some_iff.1 htargets]
        exact hleft
  · exact hdistinct task (List.mem_of_mem_drop hin)

theorem owed_setTask (tasks : List (Task α)) (sender : Pid) (channel : String) (receiver : Pid) :
    (n.setTask i tasks).owed sender channel receiver =
      (n.tasks.take i).filterMap (Task.owes sender channel receiver) ++
        (tasks.filterMap (Task.owes sender channel receiver) ++
          ((n.tasks.drop (i + 1)).filterMap (Task.owes sender channel receiver) ++
            n.requests.filterMap (Call.toPost sender channel))) := by
  simp only [Node.owed, Node.setTask, List.filterMap_append, List.append_assoc]

theorem owed_task {task : Task α} (htask : n.tasks[i]? = some task) (sender : Pid)
    (channel : String) (receiver : Pid) :
    n.owed sender channel receiver =
      (n.tasks.take i).filterMap (Task.owes sender channel receiver) ++
        ([task].filterMap (Task.owes sender channel receiver) ++
          ((n.tasks.drop (i + 1)).filterMap (Task.owes sender channel receiver) ++
            n.requests.filterMap (Call.toPost sender channel))) := by
  have hsame : n.setTask i [task] = n := by
    rw [Node.setTask, List.append_assoc, List.singleton_append, ← split_at htask]
  rw [← owed_setTask, hsame]

end Posts

theorem modify_apply (g : Node α → β) (h : g (f (s.nodes p)) = g (s.nodes p)) (q : Pid) :
    g ((s.modify p f).nodes q) = g (s.nodes q) := by
  by_cases hq : q = p
  · rw [hq, modify_self, h]
  · rw [modify_of_ne s hq]

theorem received_receive (n : Node α) (post : Post α) (sender : Pid) (channel : String) :
    (n.receive (.broadcast post)).received sender channel =
      n.received sender channel ++ if post.isFrom sender channel then [post] else [] := by
  by_cases hfrom : post.isFrom sender channel = true
  · simp [Node.received, Node.receive, Relay.post, hfrom]
  · simp [Node.received, Node.receive, Relay.post, hfrom]

section SendPost

variable {s : System α} {p : Pid} {i : ℕ} {name : String} {message : α} {target : Pid}
  {targets : List Pid}

def sendPost (s : System α) (p : Pid) (i : ℕ) (name : String) (message : α) (target : Pid)
    (targets : List Pid) : System α :=
  (s.modify p fun n => n.setTask i (taskOf (.post name message) targets)).modify target
    fun n => n.receive (.broadcast ⟨p, name, message⟩)

theorem received_sendPost (sender : Pid) (channel : String) (receiver : Pid) :
    ((sendPost s p i name message target targets).nodes receiver).received sender channel =
      (s.nodes receiver).received sender channel ++
        if sender = p ∧ channel = name ∧ receiver = target then [⟨p, name, message⟩] else [] := by
  have hset : ∀ q, ((s.modify p fun n =>
      n.setTask i (taskOf (.post name message) targets)).nodes q).received sender channel =
        (s.nodes q).received sender channel :=
    modify_apply (fun n => n.received sender channel) rfl
  by_cases htarget : receiver = target
  · rw [sendPost, htarget, modify_self, received_receive, hset]
    congr 1
    by_cases hfrom : sender = p ∧ channel = name
    · have hpost : Post.isFrom sender channel ⟨p, name, message⟩ = true :=
        decide_eq_true ⟨hfrom.1.symm, hfrom.2.symm⟩
      rw [if_pos hpost, if_pos ⟨hfrom.1, hfrom.2, rfl⟩]
    · rw [if_neg, if_neg fun h => hfrom ⟨h.1, h.2.1⟩]
      intro h
      obtain ⟨hsender, hchannel⟩ := of_decide_eq_true h
      exact hfrom ⟨hsender.symm, hchannel.symm⟩
  · rw [sendPost, modify_of_ne _ htarget, hset, if_neg fun h => htarget h.2.2, List.append_nil]

theorem owed_sendPost (sender : Pid) (channel : String) (receiver : Pid) :
    ((sendPost s p i name message target targets).nodes sender).owed sender channel receiver =
      ((s.modify p fun n => n.setTask i (taskOf (.post name message) targets)).nodes sender).owed
        sender channel receiver :=
  modify_apply (fun n => n.owed sender channel receiver) rfl sender

/-- A post that is sent before any later one of the channel comes next at its receiver. -/
theorem toMember_sendPost
    (htask : (s.nodes p).tasks[i]? = some ⟨.post name message, some (target :: targets)⟩)
    (hnodup : (target :: targets).Nodup)
    (hok : ∀ earlier ∈ (s.nodes p).tasks.take i, earlier.call.lane ≠ .channel name)
    (sender : Pid) (channel : String) (receiver : Pid) :
    (sendPost s p i name message target targets).toMember sender channel receiver =
      s.toMember sender channel receiver := by
  rw [toMember, toMember, received_sendPost, owed_sendPost, List.append_assoc]
  congr 1
  by_cases hsender : sender = p
  · have hold := @owes_post α name message p channel receiver (target :: targets)
    rw [taskOf] at hold
    rw [hsender, modify_self, owed_setTask, owes_post, owed_task htask, hold]
    by_cases hname : channel = name
    · have hnone : ((s.nodes p).tasks.take i).filterMap (Task.owes p channel receiver) = [] := by
        refine List.filterMap_eq_nil_iff.2 ?_
        intro earlier hin
        have hlane := hok earlier hin
        have hpost : earlier.call.toPost p channel = none := by
          cases hcall : earlier.call with
          | post other message =>
            refine if_neg ?_
            intro heq
            rw [hcall, heq, hname] at hlane
            exact hlane rfl
          | send socket payload => rfl
          | close socket code reason => rfl
        rw [Task.owes, hpost, ite_self]
      have hleft : target ∉ targets := (List.nodup_cons.1 hnodup).1
      rw [hnone]
      by_cases htarget : receiver = target
      · simp [hname, htarget, hleft]
      · simp [hname, htarget]
    · have hname' : name ≠ channel := fun h => hname h.symm
      simp [hname, hname']
  · rw [modify_of_ne s hsender, if_neg fun h => hsender h.1, List.nil_append]

theorem keeps_post
    (htask : (s.nodes p).tasks[i]? = some ⟨.post name message, some (target :: targets)⟩)
    (hnodup : (target :: targets).Nodup)
    (hok : ∀ earlier ∈ (s.nodes p).tasks.take i, earlier.call.lane ≠ .channel name) :
    Keeps s (sendPost s p i name message target targets) where
  calls := fun q => (modify_apply (fun n => n.calls) rfl q).trans
    (modify_apply (fun n => n.calls) rfl q)
  closing := fun q => (modify_apply (fun n => n.closing) rfl q).trans
    (modify_apply (fun n => n.closing) rfl q)
  frames := by
    intro q socket
    have hreceive : ∀ n : Node α, (n.receive (.broadcast ⟨p, name, message⟩)).toSocket socket =
        n.toSocket socket := by
      intro n
      simp [Node.toSocket, Node.receive, Relay.toSocket]
    refine (modify_apply (fun n => n.written socket ++ n.toSocket socket) ?_ q).trans
      (modify_apply (fun n => n.written socket ++ n.toSocket socket) ?_ q)
    · exact congrArg (_ ++ ·) (hreceive _)
    · exact congrArg (_ ++ ·) (toSocket_setTask htask targets socket)
  heard := by
    intro sender channel receiver _
    rw [toMember_sendPost htask hnodup hok]
  complete := fun sender channel receiver _ _ =>
    toMember_sendPost htask hnodup hok sender channel receiver
  members := rfl
  joined := rfl
  distinct := by
    intro hdistinct q
    have htasks : ((sendPost s p i name message target targets).nodes q).tasks =
        ((s.modify p fun n => n.setTask i (taskOf (.post name message) targets)).nodes q).tasks :=
      modify_apply (fun n => n.tasks) rfl q
    rw [htasks]
    by_cases hq : q = p
    · rw [hq, modify_self]
      exact distinct_setTask targets (List.nodup_cons.1 hnodup).2 (hdistinct p)
    · rw [modify_of_ne s hq]
      exact hdistinct q

end SendPost

theorem keeps_members {name : String} {message : α}
    (htask : (s.nodes p).tasks[i]? = some ⟨.post name message, none⟩)
    (hnodup : (s.members name).Nodup) : Keeps s (s.modify p fun n =>
      n.setTask i (taskOf (.post name message) ((s.members name).filter (· ≠ p)))) := by
  set targets := (s.members name).filter (· ≠ p) with htargets
  set s₁ := s.modify p fun n => n.setTask i (taskOf (.post name message) targets) with hs₁
  have hold : ∀ channel receiver, (s.nodes p).owed p channel receiver =
      ((s.nodes p).tasks.take i).filterMap (Task.owes p channel receiver) ++
        ((if name = channel then [⟨p, channel, message⟩] else []) ++
          (((s.nodes p).tasks.drop (i + 1)).filterMap (Task.owes p channel receiver) ++
            (s.nodes p).requests.filterMap (Call.toPost p channel))) := by
    intro channel receiver
    rw [owed_task htask]
    by_cases hname : name = channel
    · simp [Task.owes, Call.toPost, hname]
    · simp [Task.owes, Call.toPost, hname]
  have hreceived : ∀ q sender channel, (s₁.nodes q).received sender channel =
      (s.nodes q).received sender channel :=
    fun q sender channel => modify_apply (fun n => n.received sender channel) rfl q
  have howed : ∀ q, q ≠ p → s₁.nodes q = s.nodes q := fun q hq => modify_of_ne s hq _
  exact {
    calls := fun q => modify_apply (fun n => n.calls) rfl q
    closing := fun q => modify_apply (fun n => n.closing) rfl q
    frames := fun q socket => modify_apply (fun n => n.written socket ++ n.toSocket socket)
      (congrArg (_ ++ ·) (toSocket_setTask htask targets socket)) q
    heard := by
      intro sender channel receiver _
      rw [toMember, toMember, hreceived]
      refine List.Sublist.append_left ?_ _
      by_cases hsender : sender = p
      · rw [hsender, hold, hs₁, modify_self, owed_setTask, owes_post]
        refine List.Sublist.append_left (List.Sublist.append_right ?_ _) _
        by_cases hname : name = channel
        · rw [if_pos hname]
          split
          · exact .refl _
          · exact List.nil_sublist _
        · rw [if_neg hname, if_neg fun h => hname h.2]
      · rw [howed sender hsender]
    complete := by
      intro sender channel receiver hne hmember
      rw [toMember, toMember, hreceived]
      congr 1
      by_cases hsender : sender = p
      · rw [hsender, hold, hs₁, modify_self, owed_setTask, owes_post]
        by_cases hname : name = channel
        · have hin : receiver ∈ targets := by
            rw [htargets, hname]
            exact List.mem_filter.2 ⟨hmember, decide_eq_true (hsender ▸ hne)⟩
          rw [if_pos ⟨hin, hname⟩, if_pos hname]
        · rw [if_neg hname, if_neg fun h => hname h.2]
      · rw [howed sender hsender]
    members := rfl
    joined := rfl
    distinct := by
      intro hdistinct q
      by_cases hq : q = p
      · rw [hq, hs₁, modify_self]
        exact distinct_setTask targets (hnodup.filter _) (hdistinct p)
      · rw [hs₁, modify_of_ne s hq]
        exact hdistinct q }

/-! ### Calls and members -/

theorem Invariant.made (h : Invariant s) (p : Pid) (call : Call α) (closing : List ℕ)
    (hopen : ∀ socket, call.lane = .socket socket → socket ∉ (s.nodes p).closing)
    (hclosing : ∀ socket ∈ (s.nodes p).closing, socket ∈ closing)
    (hclose : call.isClose = true → ∃ socket ∈ closing, call.lane = .socket socket) :
    Invariant (s.modify p fun n =>
      { n with calls := n.calls ++ [call], requests := n.requests ++ [call], closing }) := by
  set f : Node α → Node α := fun n =>
    { n with calls := n.calls ++ [call], requests := n.requests ++ [call], closing } with hf
  have hreceived : ∀ q sender channel, ((s.modify p f).nodes q).received sender channel =
      (s.nodes q).received sender channel :=
    fun q sender channel => modify_apply (fun n => n.received sender channel) rfl q
  have hself : ∀ sender channel receiver, sender = p →
      (s.modify p f).toMember sender channel receiver =
        s.toMember sender channel receiver ++ [call].filterMap (Call.toPost sender channel) := by
    intro sender channel receiver hsender
    rw [toMember, toMember, hreceived, hsender, modify_self, hf]
    simp only [Node.owed, List.filterMap_append, List.append_assoc]
  have hother : ∀ sender channel receiver, sender ≠ p →
      (s.modify p f).toMember sender channel receiver = s.toMember sender channel receiver := by
    intro sender channel receiver hsender
    rw [toMember, toMember, hreceived, modify_of_ne s hsender]
  exact {
    frames := by
      intro q socket
      by_cases hq : q = p
      · rw [hq, modify_self, hf]
        have hframes := h.frames p socket
        rw [Node.callsTo, Node.toSocket] at hframes
        simp only [Node.callsTo, Node.toSocket, List.filter_append, hframes, List.append_assoc]
      · rw [modify_of_ne s hq]
        exact h.frames q socket
    closeLast := by
      intro q socket
      by_cases hq : q = p
      · rw [hq, modify_self, hf]
        simp only [Node.callsTo, List.filter_append]
        refine List.pairwise_append.2 ⟨h.closeLast p socket, List.Pairwise.filter _ (by simp), ?_⟩
        intro first hfirst last hlast
        obtain ⟨hin, hsame⟩ := List.mem_filter.1 hfirst
        obtain ⟨hcall, hlane⟩ := List.mem_filter.1 hlast
        rw [List.mem_singleton.1 hcall] at hlane
        refine Bool.eq_false_iff.2 fun hclosed => ?_
        obtain ⟨other, hother, hlast⟩ := h.closes p first hin hclosed
        have heq := hlast.symm.trans (of_decide_eq_true hsame)
        cases heq
        exact hopen socket (of_decide_eq_true hlane) hother
      · rw [modify_of_ne s hq]
        exact h.closeLast q socket
    heard := by
      intro sender channel receiver hne
      by_cases hsender : sender = p
      · rw [hself sender channel receiver hsender]
        have hheard := h.heard sender channel receiver hne
        rw [hsender] at hheard ⊢
        rw [modify_self, hf]
        simp only [Node.posts, List.filterMap_append]
        exact hheard.append_right _
      · rw [hother sender channel receiver hsender, modify_of_ne s hsender]
        exact h.heard sender channel receiver hne
    complete := by
      intro sender channel receiver hne before hjoined
      obtain ⟨later, hcalls, hsuffix⟩ := h.complete sender channel receiver hne before hjoined
      by_cases hsender : sender = p
      · refine ⟨later ++ [call], ?_, ?_⟩
        · rw [hsender] at hcalls ⊢
          rw [modify_self, hf]
          show (s.nodes p).calls ++ [call] = _
          rw [hcalls, List.append_assoc]
        · rw [hself sender channel receiver hsender, List.filterMap_append]
          obtain ⟨first, hfirst⟩ := hsuffix
          exact ⟨first, by rw [← List.append_assoc, hfirst]⟩
      · refine ⟨later, ?_, ?_⟩
        · rw [modify_of_ne s hsender]
          exact hcalls
        · rw [hother sender channel receiver hsender]
          exact hsuffix
    closes := by
      intro q first hin hclosed
      by_cases hq : q = p
      · rw [hq, modify_self, hf] at hin ⊢
        rcases List.mem_append.1 hin with hin | hin
        · obtain ⟨socket, hsocket, hlane⟩ := h.closes p first hin hclosed
          exact ⟨socket, hclosing socket hsocket, hlane⟩
        · rw [List.mem_singleton.1 hin] at hclosed ⊢
          exact hclose hclosed
      · rw [modify_of_ne s hq] at hin ⊢
        exact h.closes q first hin hclosed
    members := h.members
    distinct := by
      intro q
      have htasks : ((s.modify p f).nodes q).tasks = (s.nodes q).tasks :=
        modify_apply (fun n => n.tasks) rfl q
      rw [htasks]
      exact h.distinct q }

theorem Invariant.call (h : Invariant s) (p : Pid) (call : Call α) :
    Invariant (s.modify p fun n => n.makeCall call) := by
  have hsame : (s.nodes p).makeCall call = s.nodes p →
      Invariant (s.modify p fun n => n.makeCall call) := by
    intro heq
    refine h.keeps (Moves.keeps ?_)
    rw [heq]
    exact ⟨rfl, rfl, fun _ => rfl, fun _ _ => rfl, fun _ _ _ => rfl, id⟩
  cases call with
  | send socket payload =>
    by_cases hclosing : socket ∈ (s.nodes p).closing
    · exact hsame (if_pos hclosing)
    · have hmade := h.made p (.send socket payload) (s.nodes p).closing
        (fun other hlane => by cases hlane; exact hclosing) (fun _ hin => hin) nofun
      have hcall : (s.nodes p).makeCall (.send socket payload) = _ := if_neg hclosing
      rw [modify] at hmade ⊢
      rw [hcall]
      exact hmade
  | close socket code reason =>
    by_cases hclosing : socket ∈ (s.nodes p).closing
    · exact hsame (if_pos hclosing)
    · have hmade := h.made p (.close socket code reason) (socket :: (s.nodes p).closing)
        (fun other hlane => by cases hlane; exact hclosing)
        (fun _ hin => List.mem_cons_of_mem _ hin)
        (fun _ => ⟨socket, List.mem_cons_self, rfl⟩)
      have hcall : (s.nodes p).makeCall (.close socket code reason) = _ := if_neg hclosing
      rw [modify] at hmade ⊢
      rw [hcall]
      exact hmade
  | post name message =>
    exact h.made p (.post name message) (s.nodes p).closing nofun (fun _ hin => hin) nofun

theorem Invariant.join (h : Invariant s) (p : Pid) (name : String) : Invariant { s with
      members := Function.update s.members name (p :: s.members name)
      joined := Function.update s.joined name (Function.update (s.joined name) p
        (some ((s.joined name p).getD fun q => (s.nodes q).calls))) } where
  __ := h
  complete := by
    intro sender channel receiver hne before hjoined
    dsimp only at hjoined
    by_cases hsame : channel = name ∧ receiver = p
    · obtain ⟨rfl, rfl⟩ := hsame
      rw [Function.update_self, Function.update_self, Option.some.injEq] at hjoined
      cases hold : s.joined channel receiver with
      | none =>
        rw [hold, Option.getD_none] at hjoined
        refine ⟨[], ?_, List.nil_suffix⟩
        rw [← hjoined, List.append_nil]
      | some before' =>
        rw [hold, Option.getD_some] at hjoined
        rw [← hjoined]
        exact h.complete sender channel receiver hne before' hold
    · refine h.complete sender channel receiver hne before ?_
      rw [← hjoined]
      by_cases hname : channel = name
      · rw [hname, Function.update_self, Function.update_of_ne fun hp => hsame ⟨hname, hp⟩]
      · rw [Function.update_of_ne hname]
  members := by
    intro channel q before hjoined
    dsimp only at hjoined ⊢
    by_cases hname : channel = name
    · rw [hname, Function.update_self] at hjoined ⊢
      by_cases hq : q = p
      · rw [hq]
        exact List.mem_cons_self
      · rw [Function.update_of_ne hq] at hjoined
        exact List.mem_cons_of_mem _ (h.members name q before hjoined)
    · rw [Function.update_of_ne hname] at hjoined ⊢
      exact h.members channel q before hjoined

theorem Invariant.leave (h : Invariant s) (p : Pid) (name : String) : Invariant { s with
      members := Function.update s.members name ((s.members name).erase p)
      joined :=
        if p ∈ (s.members name).erase p then s.joined
        else Function.update s.joined name (Function.update (s.joined name) p none) } := by
  -- Who is still a member of the channel has been there all the time.
  have hjoin : ∀ channel q before,
      (if p ∈ (s.members name).erase p then s.joined
        else Function.update s.joined name (Function.update (s.joined name) p none)) channel q =
        some before → s.joined channel q = some before ∧
          (channel = name → q = p → p ∈ (s.members name).erase p) := by
    intro channel q before hjoined
    by_cases hstays : p ∈ (s.members name).erase p
    · rw [if_pos hstays] at hjoined
      exact ⟨hjoined, fun _ _ => hstays⟩
    · rw [if_neg hstays] at hjoined
      by_cases hname : channel = name
      · rw [hname, Function.update_self] at hjoined
        by_cases hq : q = p
        · rw [hq, Function.update_self] at hjoined
          cases hjoined
        · rw [Function.update_of_ne hq] at hjoined
          rw [hname]
          exact ⟨hjoined, fun _ h => absurd h hq⟩
      · rw [Function.update_of_ne hname] at hjoined
        exact ⟨hjoined, fun h => absurd h hname⟩
  exact {
    frames := h.frames
    closeLast := h.closeLast
    heard := h.heard
    complete := fun sender channel receiver hne before hjoined =>
      h.complete sender channel receiver hne before (hjoin _ _ _ hjoined).1
    closes := h.closes
    members := by
      intro channel q before hjoined
      dsimp only
      obtain ⟨hjoined, hstays⟩ := hjoin _ _ _ hjoined
      have hin := h.members channel q before hjoined
      by_cases hname : channel = name
      · rw [hname, Function.update_self]
        rw [hname] at hin
        by_cases hq : q = p
        · rw [hq]
          exact hstays hname hq
        · exact (List.mem_erase_of_ne hq).2 hin
      · rw [Function.update_of_ne hname]
        exact hin
    distinct := h.distinct }

/-! ### Runs -/

theorem Invariant.run {s s' : System α} (h : Invariant s) {p : Pid} {i : ℕ}
    (hok : Scheduled s (.run p i)) (hstep : s.run p i = some s') : Invariant s' := by
  unfold System.run at hstep
  split at hstep
  · rename_i name message target targets htask
    rw [← Option.some.inj hstep]
    refine h.keeps (keeps_post htask ?_ (hok _ htask))
    exact h.distinct p _ (List.mem_of_getElem? htask) _ rfl
  · cases hstep
  · rename_i call targets _ hpost htask
    rw [← Option.some.inj hstep]
    refine h.keeps (Moves.keeps ?_)
    cases call with
    | send socket payload => exact moves_send htask rfl (hok _ htask)
    | close socket code reason => exact moves_send htask rfl (hok _ htask)
    | post name message => exact absurd rfl (hpost name message)
  · cases hstep

theorem Invariant.getMembers {s s' : System α} (h : Invariant s)
    (hok : Scheduled s (.getMembers p i)) (hstep : s.getMembers p i = some s') : Invariant s' := by
  unfold System.getMembers at hstep
  split at hstep
  · rename_i name message htask
    rw [← Option.some.inj hstep]
    exact h.keeps (keeps_members htask (hok _ htask name rfl))
  · cases hstep

theorem Invariant.step {s s' : System α} (h : Invariant s) {event : Event α}
    (hok : Scheduled s event) (hstep : step s event = some s') : Invariant s' := by
  cases event with
  | call p call =>
    rw [← Option.some.inj hstep]
    exact h.call p call
  | dispatch p =>
    obtain ⟨n, hn, rfl⟩ := Option.map_eq_some_iff.1 hstep
    exact h.keeps (Moves.keeps (moves_dispatch hn))
  | getMembers p i => exact h.getMembers hok hstep
  | run p i => exact h.run hok hstep
  | handle p =>
    obtain ⟨n, hn, rfl⟩ := Option.map_eq_some_iff.1 hstep
    exact h.keeps (Moves.keeps (moves_handle hn))
  | write p socket =>
    obtain ⟨n, hn, rfl⟩ := Option.map_eq_some_iff.1 hstep
    exact h.keeps (Moves.keeps (moves_write hn))
  | start p i =>
    obtain ⟨n, hn, rfl⟩ := Option.map_eq_some_iff.1 hstep
    exact h.keeps (Moves.keeps (moves_start hok hn))
  | take p =>
    obtain ⟨n, hn, rfl⟩ := Option.map_eq_some_iff.1 hstep
    exact h.keeps (Moves.keeps (moves_take hn))
  | drop p => cases hok
  | join p channel =>
    rw [← Option.some.inj hstep]
    exact h.join p channel
  | leave p channel =>
    rw [← Option.some.inj hstep]
    exact h.leave p channel

/-- In every scheduled run, side effects keep the order of their calls. -/
theorem inOrder {s : System α} (h : machine.ReachableIf Scheduled s) : InOrder s := by
  refine Invariant.toInOrder (Machine.ReachableIf.invariant ?_ ?_ h)
  · rintro s ⟨members, rfl⟩
    exact invariant_initial members
  · intro s event s' hs hok hstep
    exact hs.step hok hstep

/-- A frame, a close and a post that a member hears. -/
theorem inOrder_posted :
    ∃ s : System ℕ, machine.exec (initial fun _ => [0, 1]) [.call 0 (.send 7 10),
        .call 0 (.close 7 1000 ""), .call 0 (.post "news" 11), .dispatch 0, .dispatch 0,
        .dispatch 0, .getMembers 0 2, .run 0 2, .run 0 0, .run 0 0, .handle 1, .start 1 0,
        .take 1, .handle 0, .handle 0, .write 0 7, .write 0 7] = some s ∧
      (s.nodes 0).written 7 = [.send 7 10, .close 7 1000 ""] ∧
      (s.nodes 1).seen = [⟨0, "news", 11⟩] ∧ InOrder s := by
  have hrun : ∃ s : System ℕ, machine.exec (initial fun _ => [0, 1]) [.call 0 (.send 7 10),
      .call 0 (.close 7 1000 ""), .call 0 (.post "news" 11), .dispatch 0, .dispatch 0,
      .dispatch 0, .getMembers 0 2, .run 0 2, .run 0 0, .run 0 0, .handle 1, .start 1 0,
      .take 1, .handle 0, .handle 0, .write 0 7, .write 0 7] = some s ∧
      (s.nodes 0).written 7 = [.send 7 10, .close 7 1000 ""] ∧
      (s.nodes 1).seen = [⟨0, "news", 11⟩] ∧
      machine.GuardedRun Scheduled (initial fun _ => [0, 1]) [.call 0 (.send 7 10),
        .call 0 (.close 7 1000 ""), .call 0 (.post "news" 11), .dispatch 0, .dispatch 0,
        .dispatch 0, .getMembers 0 2, .run 0 2, .run 0 0, .run 0 0, .handle 1, .start 1 0,
        .take 1, .handle 0, .handle 0, .write 0 7, .write 0 7] s := by
    refine ⟨_, rfl, rfl, rfl, ?_⟩
    refine .cons trivial rfl <| .cons trivial rfl <| .cons trivial rfl <| .cons trivial rfl <|
      .cons trivial rfl <| .cons trivial rfl <| .cons ?_ rfl <| .cons ?_ rfl <| .cons ?_ rfl <|
      .cons ?_ rfl <| .cons trivial rfl <| .cons ?_ rfl <| .cons trivial rfl <|
      .cons trivial rfl <| .cons trivial rfl <| .cons trivial rfl <| .cons trivial rfl <| .nil _
    · intro _ _ _ _
      show ([0, 1] : List ℕ).Nodup
      decide
    · rintro _ ⟨⟩ earlier hin
      rcases List.mem_cons.1 hin with rfl | hin
      · nofun
      · rw [List.mem_singleton.1 hin]
        nofun
    · exact fun _ _ _ hin => absurd hin List.not_mem_nil
    · exact fun _ _ _ hin => absurd hin List.not_mem_nil
    · exact fun _ _ _ hin => absurd hin List.not_mem_nil
  obtain ⟨s, hexec, hwritten, hseen, hrun⟩ := hrun
  exact ⟨s, hexec, hwritten, hseen, inOrder ⟨_, _, ⟨_, rfl⟩, hrun⟩⟩

/-- The task of a second frame acts first. -/
theorem frames_swapped : ¬ ∀ s : System ℕ, machine.Reachable s → InOrder s := by
  intro h
  have hrun : ∃ s : System ℕ, machine.exec (initial fun _ => []) [.call 0 (.send 7 10),
      .call 0 (.send 7 11), .dispatch 0, .dispatch 0, .run 0 1, .run 0 0, .handle 0,
      .write 0 7] = some s ∧ (s.nodes 0).written 7 = [.send 7 11] ∧
      (s.nodes 0).callsTo 7 = [.send 7 10, .send 7 11] := ⟨_, rfl, rfl, rfl⟩
  obtain ⟨s, hexec, hwritten, hcalls⟩ := hrun
  have hframes := (h s (Machine.reachable_of_exec ⟨_, rfl⟩ hexec)).frames 0 7
  rw [hwritten, hcalls, List.singleton_append, List.cons.injEq, Call.send.injEq] at hframes
  exact absurd hframes.1.2 (by decide)

end System

end QuickBeam.Native
