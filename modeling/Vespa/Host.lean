import Vespa.HubService
import Mathlib.Data.Finset.Card

/-!
# The hives behind one path (`main.c`, `server.c`)

`IpcServerInit` binds `SOCKET_PATH` and listens; an error of either is logged, and
`main` goes on. A hive without a socket has nothing to wait for: its loop
returns at once, and it ends with status 0.

`bind` fails where there is a file, and no hive ever removes its own: the loop of
one that listens never returns, and `IpcServerFree` closes no handle. So the file
outlives its hive. `Host` has hives started and ended in any order on one
machine, clients that dial, and someone who may remove the file. There is never
more than one hive for each time that was done, and one; and once the hive
behind the path has died nothing but that brings another.
-/

namespace Vespa

variable {lib : Libbson}

/-! ## The program -/

/-- The handle of a server, as `uv_pipe_init`, `uv_pipe_bind` and `uv_listen` leave it. -/
inductive PipeHandle where
  | idle
  | bound
  | listening
deriving DecidableEq, Repr

/-- What libuv answers a hive: whether there is memory for a loop, the statuses of
`uv_pipe_bind` and `uv_listen`, and whether it was built with assertions. -/
structure HiveCalls where
  newLoop : Bool
  bind : Int
  listen : Int
  asserts : Bool

/-- What it can answer: no socket is made in the place of a file, and only one that was
made can listen. -/
def HiveCalls.possible (c : HiveCalls) (taken : Bool) : Bool :=
  c.bind ≤ 0 && c.listen ≤ 0 && (!taken || c.bind ≠ 0) && (c.bind == 0 || c.listen ≠ 0)

inductive HiveStatus where
  | serving
  | ended (exit : Except Halt Nat)
  | killed
deriving DecidableEq

/-- `CHECK_UV`: an error is logged. -/
def checkUv (status : Int) (format : String) : List String := if status ≠ 0 then [format] else []

/-- The handle `IpcServerInit` leaves, and what it logs. -/
def ipcServerInit (c : HiveCalls) : PipeHandle × List String :=
  (if c.bind ≠ 0 then .idle else if c.listen ≠ 0 then .bound else .listening,
    checkUv c.bind "failed to bind server" ++ checkUv c.listen "server failed to listen")

/-- `uv_loop_delete`, with the handle of the server still open: an assertion fails. -/
def ipcServerFree (c : HiveCalls) : Except Halt Unit :=
  if c.asserts then .error .abort else .ok ()

/-- `main`, up to the first callback or to its end. `uv_run` returns when no handle is
active, and only one that listens is. -/
def hiveMain (c : HiveCalls) : PipeHandle × List String × HiveStatus :=
  if !c.newLoop then (.idle, [], .ended (.error .undefined))
  else
    let (handle, errors) := ipcServerInit c
    (handle, errors,
      if handle = .listening then .serving else .ended ((ipcServerFree c).map fun _ => 0))

/-! ## The machine it runs on -/

abbrev HiveId := Nat

/-- A hive that was started. `waiting` counts the connections it has not accepted. -/
structure HiveProcess (lib : Libbson) where
  handle : PipeHandle
  errors : List String
  status : HiveStatus
  waiting : Nat
  hub : Hub lib

def HiveProcess.start (lib : Libbson) (c : HiveCalls) : HiveProcess lib :=
  let (handle, errors, status) := hiveMain c
  ⟨handle, errors, status, 0, idleHub lib⟩

/-- `path` is the hive whose socket the file is, and `made` all that ever made one, the
last one first. -/
structure Host (lib : Libbson) where
  hives : HiveId → Option (HiveProcess lib)
  nextHive : HiveId
  path : Option HiveId
  made : List HiveId

/-- `lost` is a connection that is given up before it is accepted; `failed` the `exit(1)`
of a hive on a read that its hub does not go on from, or on what a client outside its
hub sent it; `killed` its death by a signal, SIGPIPE or another; `unlink` the removal
of the file. -/
inductive HostEvent (lib : Libbson) where
  | start (c : HiveCalls)
  | dial
  | lost (i : HiveId)
  | hub (i : HiveId) (e : HubEvent lib)
  | failed (i : HiveId)
  | killed (i : HiveId)
  | unlink

/-- The connections a callback takes: none if `accept` itself failed. -/
def HubEvent.accepts : HubEvent lib → Nat
  | .connect status _ => if status < 0 then 0 else 1
  | _ => 0

def HubEvent.connects : HubEvent lib → Bool
  | .connect _ _ => true
  | _ => false

namespace Host

/-- A hive, if its loop runs. -/
def serving (s : Host lib) (i : HiveId) : Option (HiveProcess lib) :=
  (s.hives i).filter fun h => h.status = .serving

def setHive (s : Host lib) (i : HiveId) (h : HiveProcess lib) : Host lib :=
  { s with hives := Function.update s.hives i (some h) }

def addHive (s : Host lib) (h : HiveProcess lib) : Host lib where
  hives := Function.update s.hives s.nextHive (some h)
  nextHive := s.nextHive + 1
  path := if h.handle = .idle then s.path else some s.nextHive
  made := if h.handle = .idle then s.made else s.nextHive :: s.made

end Host

def hostStep (s : Host lib) : HostEvent lib → Option (Host lib)
  | .start c => if c.possible s.path.isSome then some (s.addHive (.start lib c)) else none
  | .dial =>
    s.path.bind fun i => (s.serving i).map fun h => s.setHive i { h with waiting := h.waiting + 1 }
  | .lost i =>
    (s.serving i).bind fun h =>
      if 0 < h.waiting then some (s.setHive i { h with waiting := h.waiting - 1 }) else none
  | .hub i e =>
    (s.serving i).bind fun h =>
      if e.connects && h.waiting == 0 then none
      else
        (hubStep h.hub e).map fun hub =>
          s.setHive i { h with hub := hub, waiting := h.waiting - e.accepts }
  | .failed i =>
    (s.serving i).map fun h => s.setHive i { h with status := .ended (.error (.exit 1)) }
  | .killed i => (s.serving i).map fun h => s.setHive i { h with status := .killed }
  | .unlink => s.path.map fun _ => { s with path := none }

def hostMachine (lib : Libbson) : Machine (Host lib) (HostEvent lib) where
  init s := (∀ i, s.hives i = none) ∧ s.nextHive = 0 ∧ s.path = none ∧ s.made = []
  step := hostStep

def HostEvent.unlinks : HostEvent lib → Bool
  | .unlink => true
  | .start _ | .dial | .lost _ | .hub _ _ | .failed _ | .killed _ => false

/-- A hive no client can have reached, nor ever will. -/
structure HiveProcess.Untouched (h : HiveProcess lib) : Prop where
  status : h.status ≠ .serving
  waiting : h.waiting = 0
  hub : h.hub = idleHub lib

section
variable {s : Host lib} {i j : HiveId} {h : HiveProcess lib}

@[simp] theorem Host.hives_setHive_self : (s.setHive i h).hives i = some h :=
  Function.update_self ..

theorem Host.hives_setHive_of_ne (hj : j ≠ i) : (s.setHive i h).hives j = s.hives j :=
  Function.update_of_ne hj ..

@[simp] theorem Host.hives_addHive_self : (s.addHive h).hives s.nextHive = some h :=
  Function.update_self ..

theorem Host.hives_addHive_of_ne (hj : j ≠ s.nextHive) : (s.addHive h).hives j = s.hives j :=
  Function.update_of_ne hj ..

theorem Host.of_serving (hs : s.serving i = some h) :
    s.hives i = some h ∧ h.status = .serving := by
  obtain ⟨hi, hserving⟩ := Option.filter_eq_some_iff.mp hs
  exact ⟨hi, of_decide_eq_true hserving⟩

end

/-! ## The courses of a step -/

/-- What an event does to a hive that serves. -/
structure HiveProcess.Moves (h h' : HiveProcess lib) : Prop where
  handle : h'.handle = h.handle
  hub : h'.hub = h.hub ∨ ∃ e, hubStep h.hub e = some h'.hub

/-- An event of the host, with the state it leads to. -/
inductive HostCourse (s : Host lib) : HostEvent lib → Host lib → Prop where
  | started {c : HiveCalls} (hc : c.possible s.path.isSome = true) :
      HostCourse s (.start c) (s.addHive (.start lib c))
  | moved {e : HostEvent lib} {i : HiveId} {h h' : HiveProcess lib} (he : e.unlinks = false)
      (hi : s.hives i = some h) (hserving : h.status = .serving) (hmoves : h.Moves h')
      (hdial : e = .dial → s.path = some i) : HostCourse s e (s.setHive i h')
  | unlinked {i : HiveId} (hpath : s.path = some i) : HostCourse s .unlink { s with path := none }

section
variable {s s' : Host lib} {i : HiveId} {h : HiveProcess lib}

theorem hostCourse_of_step {e : HostEvent lib} (h : hostStep s e = some s') :
    HostCourse s e s' := by
  cases e with
  | start c =>
      obtain ⟨hc, hs⟩ := Option.ite_none_right_eq_some.mp h
      obtain rfl := Option.some.inj hs
      exact .started hc
  | dial =>
      obtain ⟨i, hpath, h⟩ := Option.bind_eq_some_iff.mp h
      obtain ⟨p, hp, rfl⟩ := Option.map_eq_some_iff.mp h
      obtain ⟨hi, hserving⟩ := Host.of_serving hp
      exact .moved rfl hi hserving ⟨rfl, .inl rfl⟩ fun _ => hpath
  | lost i =>
      obtain ⟨p, hp, h⟩ := Option.bind_eq_some_iff.mp h
      obtain ⟨hi, hserving⟩ := Host.of_serving hp
      obtain ⟨-, hs⟩ := Option.ite_none_right_eq_some.mp h
      obtain rfl := Option.some.inj hs
      exact .moved rfl hi hserving ⟨rfl, .inl rfl⟩ nofun
  | hub i e =>
      obtain ⟨p, hp, h⟩ := Option.bind_eq_some_iff.mp h
      obtain ⟨hi, hserving⟩ := Host.of_serving hp
      obtain ⟨-, hs⟩ := Option.ite_none_left_eq_some.mp h
      obtain ⟨hub, hhub, rfl⟩ := Option.map_eq_some_iff.mp hs
      exact .moved rfl hi hserving ⟨rfl, .inr ⟨e, hhub⟩⟩ nofun
  | failed i | killed i =>
      obtain ⟨p, hp, rfl⟩ := Option.map_eq_some_iff.mp h
      obtain ⟨hi, hserving⟩ := Host.of_serving hp
      exact .moved rfl hi hserving ⟨rfl, .inl rfl⟩ nofun
  | unlink =>
      obtain ⟨i, hpath, rfl⟩ := Option.map_eq_some_iff.mp h
      exact .unlinked hpath

/-- **What a start leads to**: the hive listens and serves, or it has ended already. -/
theorem start_cases (c : HiveCalls) :
    (HiveProcess.start lib c).handle = .listening ∧ (HiveProcess.start lib c).status = .serving
      ∨ (HiveProcess.start lib c).handle ≠ .listening ∧ (HiveProcess.start lib c).Untouched := by
  cases hloop : c.newLoop with
  | false =>
      refine .inr ⟨?_, ?_, rfl, rfl⟩ <;> simp [HiveProcess.start, hiveMain, hloop]
  | true =>
      by_cases hlistening : (ipcServerInit c).1 = .listening
      · exact .inl (by simp [HiveProcess.start, hiveMain, hloop, hlistening])
      · refine .inr ⟨?_, ?_, rfl, rfl⟩ <;>
          simp [HiveProcess.start, hiveMain, hloop, hlistening]

/-- A hive with a socket made its file where there was none. -/
theorem not_taken_of_start {c : HiveCalls} {taken : Bool} (hc : c.possible taken = true)
    (hmade : (HiveProcess.start lib c).handle ≠ .idle) : taken = false := by
  have hbind : c.bind = 0 := by
    by_contra hbind
    cases hloop : c.newLoop <;>
      simp [HiveProcess.start, hiveMain, ipcServerInit, hloop, hbind] at hmade
  simp [HiveCalls.possible, hbind] at hc
  exact hc.2

/-! ## The invariant -/

/-- The hives that made a file, and what every hive is. -/
structure Host.Inv (s : Host lib) : Prop where
  fresh : ∀ j, s.nextHive ≤ j → s.hives j = none
  nodup : s.made.Nodup
  path : ∀ i, s.path = some i → i ∈ s.made
  made : ∀ i, i ∈ s.made ↔ ∃ h, s.hives i = some h ∧ h.handle ≠ .idle
  untouched : ∀ i h, s.hives i = some h → h.handle ≠ .listening → h.Untouched
  reachable : ∀ i h, s.hives i = some h → (hubMachine lib).Reachable h.hub

theorem Host.Inv.added (hs : s.Inv) (c : HiveCalls) : (s.addHive (.start lib c)).Inv where
  fresh j hj := by
    have hne : j ≠ s.nextHive := Nat.ne_of_gt hj
    rw [Host.hives_addHive_of_ne hne]
    exact hs.fresh j (Nat.le_of_succ_le hj)
  nodup := by
    have hnew : s.nextHive ∉ s.made := fun hmem => by
      obtain ⟨h, hh, -⟩ := (hs.made _).mp hmem
      rw [hs.fresh _ le_rfl] at hh
      cases hh
    simp only [Host.addHive]
    split_ifs
    · exact hs.nodup
    · exact List.nodup_cons.mpr ⟨hnew, hs.nodup⟩
  path i hi := by
    simp only [Host.addHive] at hi ⊢
    split_ifs at hi ⊢
    · exact hs.path i hi
    · obtain rfl := Option.some.inj hi
      exact List.mem_cons_self
  made i := by
    by_cases hi : i = s.nextHive
    · subst hi
      have hnone := hs.fresh s.nextHive le_rfl
      have hold := hs.made s.nextHive
      simp only [hnone, reduceCtorEq, false_and, exists_false, iff_false] at hold
      simp only [Host.hives_addHive_self, Option.some.injEq, exists_eq_left']
      rw [Host.addHive]
      split_ifs with hidle
      · simp [hidle, hold]
      · simp [hidle]
    · rw [Host.hives_addHive_of_ne hi, Host.addHive]
      split_ifs
      · exact hs.made i
      · rw [List.mem_cons, or_iff_right hi]
        exact hs.made i
  untouched i h hh hhandle := by
    by_cases hi : i = s.nextHive
    · subst hi
      obtain rfl := Option.some.inj (Host.hives_addHive_self.symm.trans hh)
      rcases start_cases c with ⟨hlistening, -⟩ | ⟨-, huntouched⟩
      · exact absurd hlistening hhandle
      · exact huntouched
    · exact hs.untouched i h ((Host.hives_addHive_of_ne hi).symm.trans hh) hhandle
  reachable i h hh := by
    by_cases hi : i = s.nextHive
    · subst hi
      obtain rfl := Option.some.inj (Host.hives_addHive_self.symm.trans hh)
      exact idleHub_reachable lib
    · exact hs.reachable i h ((Host.hives_addHive_of_ne hi).symm.trans hh)

theorem Host.Inv.moved (hs : s.Inv) {h' : HiveProcess lib} (hi : s.hives i = some h)
    (hserving : h.status = .serving) (hmoves : h.Moves h') : (s.setHive i h').Inv where
  fresh j hj := by
    have hne : j ≠ i := by
      rintro rfl
      rw [hs.fresh j hj] at hi
      cases hi
    rw [Host.hives_setHive_of_ne hne]
    exact hs.fresh j hj
  nodup := hs.nodup
  path := hs.path
  made j := by
    by_cases hj : j = i
    · subst hj
      have hold := hs.made j
      simp only [hi, Option.some.injEq, exists_eq_left'] at hold
      simp only [Host.hives_setHive_self, Option.some.injEq, exists_eq_left', hmoves.handle]
      exact hold
    · rw [Host.hives_setHive_of_ne hj]
      exact hs.made j
  untouched j p hp hhandle := by
    by_cases hj : j = i
    · subst hj
      obtain rfl := Option.some.inj (Host.hives_setHive_self.symm.trans hp)
      exact absurd hserving (hs.untouched j h hi (hmoves.handle ▸ hhandle)).status
    · exact hs.untouched j p ((Host.hives_setHive_of_ne hj).symm.trans hp) hhandle
  reachable j p hp := by
    by_cases hj : j = i
    · subst hj
      obtain rfl := Option.some.inj (Host.hives_setHive_self.symm.trans hp)
      rcases hmoves.hub with hsame | ⟨e, hstep⟩
      · exact hsame ▸ hs.reachable j h hi
      · exact (hs.reachable j h hi).step hstep
    · exact hs.reachable j p ((Host.hives_setHive_of_ne hj).symm.trans hp)

theorem inv_host_step {e : HostEvent lib} (hs : s.Inv) (h : HostCourse s e s') : s'.Inv := by
  cases h with
  | started => exact hs.added _
  | moved he hi hserving hmoves hdial => exact hs.moved hi hserving hmoves
  | unlinked hpath => exact ⟨hs.fresh, hs.nodup, nofun, hs.made, hs.untouched, hs.reachable⟩

end

theorem host_invariant (lib : Libbson) : (hostMachine lib).Invariant Host.Inv where
  init s hs := by
    obtain ⟨hhives, -, hpath, hmade⟩ := hs
    refine ⟨fun j _ => hhives j, hmade ▸ List.nodup_nil, fun i hi => ?_, fun i => ?_,
      fun i h hh => ?_, fun i h hh => ?_⟩
    · rw [hpath] at hi
      cases hi
    · simp [hmade, hhives]
    all_goals
      rw [hhives] at hh
      cases hh
  step s e s' hs h := inv_host_step hs (hostCourse_of_step h)

/-! ## One hive for each file -/

/-- A file is made where there is none, and there is one again when it was removed. -/
theorem made_step {s s' : Host lib} {e : HostEvent lib} (h : HostCourse s e s') :
    s'.made.length + s.path.toList.length
      = s.made.length + [e].countP HostEvent.unlinks + s'.path.toList.length := by
  cases h with
  | @started c hc =>
      simp only [Host.addHive]
      split_ifs with hidle
      · rfl
      · have hnone := Option.isSome_eq_false_iff.mp (not_taken_of_start hc hidle)
        rw [Option.isNone_iff_eq_none.mp hnone]
        rfl
  | moved he hi hserving hmoves hdial => simp [Host.setHive, he]
  | unlinked hpath => simp [hpath, HostEvent.unlinks]

def emptyHost (lib : Libbson) : Host lib := ⟨fun _ => none, 0, none, []⟩

/-- **One hive for each file.** Of all the hives that were ever started, whatever order
they started and died in, as many have had a socket as the file was removed
times, and one more if it is there. The others ended without a client. Every
client of every hive has been served by it. -/
theorem one_hive_for_each_file {es : List (HostEvent lib)} {s : Host lib}
    (h : (hostMachine lib).exec (emptyHost lib) es = some s) :
    (s.made.Nodup ∧ s.made.length = es.countP HostEvent.unlinks + s.path.toList.length
      ∧ ∀ i, i ∈ s.made ↔ ∃ h, s.hives i = some h ∧ h.handle ≠ .idle)
    ∧ ∀ i h, s.hives i = some h → (h.handle ≠ .listening → h.Untouched) ∧ ∀ c, Served h.hub c := by
  have hinit : (emptyHost lib).Inv := (host_invariant lib).init _ ⟨fun _ => rfl, rfl, rfl, rfl⟩
  have hrun := Machine.exec_countP (p := HostEvent.unlinks) (n := 0)
    (Q := fun n s => s.Inv ∧ s.made.length = n + s.path.toList.length)
    (fun n s e s' _ hs hstep => ?_) ⟨hinit, rfl⟩ h
  · obtain ⟨hinv, hcount⟩ := hrun
    rw [Nat.zero_add] at hcount
    refine ⟨⟨hinv.nodup, hcount, hinv.made⟩, fun i p hp => ⟨hinv.untouched i p hp, fun c => ?_⟩⟩
    have hbooks := (hub_invariant lib).reachable (hinv.reachable i p hp)
    obtain ⟨handled, waiting, haccount⟩ := hbooks.account c
    exact haccount.served
  · have hcourse := hostCourse_of_step hstep
    have hone := made_step hcourse
    have hold := hs.2
    exact ⟨inv_host_step hs.1 hcourse, by omega⟩

/-- A hive is killed with a client on its way, the next one finds the file, and the one
after its removal listens again. -/
def restarts : List (HostEvent .lenient) :=
  [.start ⟨true, 0, 0, false⟩, .dial, .hub 0 (.connect 0 true), .hub 0 (.send 0 (.hello .lenient)),
    .dial, .killed 0, .start ⟨true, -98, -22, false⟩, .unlink, .start ⟨true, 0, 0, false⟩, .dial]

theorem two_hives_in_turn : ∃ s, (hostMachine .lenient).exec (emptyHost .lenient) restarts = some s
    ∧ s.made.length = 2 := by
  have hruns : (((hostMachine .lenient).exec (emptyHost .lenient) restarts).any fun s =>
      s.path.isSome) = true := by
    decide +kernel
  obtain ⟨s, hs, hpath⟩ := (Option.any_eq_true _ _).mp hruns
  obtain ⟨i, hi⟩ := Option.isSome_iff_exists.mp hpath
  refine ⟨s, hs, ?_⟩
  rw [(one_hive_for_each_file hs).1.2.1, hi]
  rfl

/-! ## A file without its hive -/

/-- The file at the path is of a hive that is gone. -/
def Host.Deserted (s : Host lib) (i : HiveId) : Prop :=
  s.path = some i ∧ ∃ h, s.hives i = some h ∧ h.status ≠ .serving

/-- A hive that found the path taken. If there is memory for its loop it logs two errors
and ends: with status 0, unless an assertion of libuv fails. -/
structure HiveProcess.Refused (h : HiveProcess lib) : Prop extends h.Untouched where
  ended : h.status = .ended (.error .undefined)
    ∨ h.errors = ["failed to bind server", "server failed to listen"]
      ∧ (h.status = .ended (.ok 0) ∨ h.status = .ended (.error .abort))

theorem start_taken {c : HiveCalls} (hc : c.possible true = true) :
    (HiveProcess.start lib c).handle = .idle ∧ (HiveProcess.start lib c).Refused := by
  simp [HiveCalls.possible] at hc
  obtain ⟨⟨-, hbind⟩, hlisten⟩ := hc
  have hlisten := hlisten.resolve_left hbind
  cases hloop : c.newLoop with
  | false =>
      refine ⟨?_, ⟨?_, rfl, rfl⟩, .inl ?_⟩ <;> simp [HiveProcess.start, hiveMain, hloop]
  | true =>
      refine ⟨?_, ⟨?_, rfl, rfl⟩, .inr ⟨?_, ?_⟩⟩
      · simp [HiveProcess.start, hiveMain, hloop, ipcServerInit, hbind]
      · simp [HiveProcess.start, hiveMain, hloop, ipcServerInit, hbind]
      · simp [HiveProcess.start, hiveMain, hloop, ipcServerInit, hbind, hlisten, checkUv]
      · cases hasserts : c.asserts with
        | false =>
            refine .inl ?_
            simp [HiveProcess.start, hiveMain, hloop, ipcServerInit, hbind, ipcServerFree, hasserts,
              Except.map]
        | true =>
            refine .inr ?_
            simp [HiveProcess.start, hiveMain, hloop, ipcServerInit, hbind, ipcServerFree, hasserts,
              Except.map]

section
variable {s s' : Host lib} {i : HiveId} {e : HostEvent lib}

/-- **A step beside a deserted file**: nobody gets through, who is started is refused, and
of the others only those that serve change. -/
theorem deserted_step (hs : s.Inv) (hdead : s.Deserted i) (he : e ≠ .unlink)
    (h : HostCourse s e s') :
    e ≠ .dial ∧ s'.Deserted i ∧ s'.made = s.made
      ∧ ∀ j p', s'.hives j = some p' →
        p'.Refused ∨ ∃ p, s.hives j = some p ∧ (p' = p ∨ p.status = .serving) := by
  obtain ⟨hpath, p, hp, hstatus⟩ := hdead
  cases h with
  | @started c hc =>
      rw [hpath] at hc
      obtain ⟨hidle, hrefused⟩ := @start_taken lib c hc
      have hi : i ≠ s.nextHive := by
        rintro rfl
        rw [hs.fresh _ le_rfl] at hp
        cases hp
      refine ⟨nofun, ⟨?_, p, (Host.hives_addHive_of_ne hi).trans hp, hstatus⟩, ?_, ?_⟩
      · rw [Host.addHive, if_pos hidle, hpath]
      · simp only [Host.addHive, if_pos hidle]
      · intro j p' hp'
        by_cases hj : j = s.nextHive
        · subst hj
          obtain rfl := Option.some.inj (Host.hives_addHive_self.symm.trans hp')
          exact .inl hrefused
        · exact .inr ⟨p', (Host.hives_addHive_of_ne hj).symm.trans hp', .inl rfl⟩
  | @moved _ k q q' _ hk hserving hmoves hdial =>
      have hi : i ≠ k := by
        rintro rfl
        rw [hp] at hk
        exact hstatus (Option.some.inj hk ▸ hserving)
      refine ⟨fun hd => hi (Option.some.inj (hpath.symm.trans (hdial hd))),
        ⟨hpath, p, (Host.hives_setHive_of_ne hi).trans hp, hstatus⟩, rfl, fun j p' hp' => .inr ?_⟩
      by_cases hj : j = k
      · exact ⟨q, hj ▸ hk, .inr hserving⟩
      · exact ⟨p', (Host.hives_setHive_of_ne hj).symm.trans hp', .inl rfl⟩
  | unlinked => exact absurd rfl he

/-- How things stand at `s`, the file having been deserted since `s₀`. -/
structure Down (s₀ : Host lib) (i : HiveId) (s : Host lib) : Prop where
  inv : s.Inv
  deserted : s.Deserted i
  made : s.made = s₀.made
  refused : ∀ j p, s₀.hives j = none → s.hives j = some p → p.Refused

theorem down_step {s₀ : Host lib} (hs : Down s₀ i s) (he : e ≠ .unlink) (h : HostCourse s e s') :
    Down s₀ i s' := by
  obtain ⟨-, hdead, hmade, hhives⟩ := deserted_step hs.inv hs.deserted he h
  refine ⟨inv_host_step hs.inv h, hdead, hmade.trans hs.made, fun j p' hnone hp' => ?_⟩
  rcases hhives j p' hp' with hnew | ⟨p, hp, rfl | hserving⟩
  · exact hnew
  · exact hs.refused j _ hnone hp
  · exact absurd hserving (hs.refused j p hnone hp).status

end

/-- **A hive does not come back.** Once the hive behind the path is gone, and as long as
no one removes its file, no client gets through, and every hive that is started
ends where it began. -/
theorem hive_stays_down {s s' : Host lib} {i : HiveId} {es : List (HostEvent lib)}
    (hs : (hostMachine lib).Reachable s) (hdead : s.Deserted i) (hes : .unlink ∉ es)
    (h : (hostMachine lib).exec s es = some s') :
    .dial ∉ es ∧ s'.Deserted i ∧ s'.made = s.made
      ∧ ∀ j p, s.hives j = none → s'.hives j = some p → p.Refused := by
  have hstart : Down s i s := by
    refine ⟨(host_invariant lib).reachable hs, hdead, rfl, fun j p hnone hp => ?_⟩
    rw [hnone] at hp
    cases hp
  have hne : ∀ e ∈ es, e ≠ .unlink := fun e he heq => hes (heq ▸ he)
  have hstep : ∀ s₁ e s₂, e ∈ es → Down s i s₁ → (hostMachine lib).step s₁ e = some s₂ →
      Down s i s₂ :=
    fun _ e _ he hdown hstep => down_step hdown (hne e he) (hostCourse_of_step hstep)
  refine ⟨fun hdial => ?_, ?_⟩
  · obtain ⟨s₁, s₂, hdown, hdialled⟩ := Machine.step_of_mem_induction hstep hstart h hdial
    have hcourse := hostCourse_of_step (e := .dial) hdialled
    exact (deserted_step hdown.inv hdown.deserted (hne _ hdial) hcourse).1 rfl
  · have hdown := Machine.exec_induction hstep hstart h
    exact ⟨hdown.deserted, hdown.made, hdown.refused⟩

theorem second_hive_refused : ∃ s s', (hostMachine .lenient).exec (emptyHost .lenient)
      (restarts.take 6) = some s
    ∧ (hostMachine .lenient).exec s [.start ⟨true, -98, -22, false⟩] = some s'
    ∧ ∀ p, s'.hives 1 = some p → p.Refused := by
  have hruns : (((hostMachine .lenient).exec (emptyHost .lenient) (restarts.take 6)).any fun s =>
      s.path == some 0 && (s.hives 0).any (fun p => p.status = .killed) && (s.hives 1).isNone
        && ((hostMachine .lenient).exec s [.start ⟨true, -98, -22, false⟩]).isSome) = true := by
    decide +kernel
  obtain ⟨s, hs, hprops⟩ := (Option.any_eq_true _ _).mp hruns
  simp only [Bool.and_eq_true] at hprops
  obtain ⟨⟨⟨hpath, hkilled⟩, hnone⟩, hrest⟩ := hprops
  obtain ⟨p, hp, hstatus⟩ := (Option.any_eq_true _ _).mp hkilled
  obtain ⟨s', hs'⟩ := Option.isSome_iff_exists.mp hrest
  have hinit : (hostMachine .lenient).Reachable (emptyHost .lenient) :=
    .init ⟨fun _ => rfl, rfl, rfl, rfl⟩
  have hdead : s.Deserted 0 :=
    ⟨beq_iff_eq.mp hpath, p, hp, by rw [of_decide_eq_true hstatus]; exact nofun⟩
  refine ⟨s, s', hs, hs', fun p hp => ?_⟩
  have hdown := hive_stays_down (hinit.exec hs) hdead (fun hmem => by simp at hmem) hs'
  exact hdown.2.2.2 1 p (Option.isNone_iff_eq_none.mp hnone) hp

end Vespa
