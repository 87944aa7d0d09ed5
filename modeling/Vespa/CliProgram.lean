import Vespa.CliStream
import Vespa.Flags
import Vespa.HubService

/-!
# The command line and the hive (`main.go`)

`main` parses the words behind its command, connects, and makes one request. What it
can be made to write is a ping with the last digest it was given, or with its own,
or an event with the last topic, and nothing else; `apply` parses, connects and
fails, and `-socket-path` is a flag of a set that is never parsed.

Together with the hive the two requests end differently. A ping ends with status 0
exactly when its whole pong arrived, and then `OnPing` was called with its digest.
A publication ends with status 0 once it is written, whatever becomes of it.
-/

namespace Vespa

open Bson Flags

/-! ## The program -/

/-- What the program meets: whether `net.Dial` connects and `conn.Write` succeeds, the
time, and the bytes it can read before the stream ends or the deadline is past. -/
structure CliWorld where
  dials : Bool
  writes : Bool
  now : GoTime
  conn : List UInt8

/-- The documents a run has written, and its status. -/
structure CliEnd where
  written : List (List UInt8)
  status : Nat
deriving DecidableEq, Repr

def digestFlag : List UInt8 := ascii "digest"

def topicFlag : List UInt8 := ascii "topic"

def pingCmd (name : List UInt8) : Bool := name == digestFlag

def applyCmd (_ : List UInt8) : Bool := false

def publishCmd (name : List UInt8) : Bool := name == topicFlag

/-- The defaults of the flags. -/
def noValues : Values := fun _ => []

/-- `flag.ExitOnError` -/
def exitOnError : Failure → Nat
  | .help => 0
  | .usage => 2

/-- The first switch of `main`: the flags of a command. -/
def flagsOf (cmd : List UInt8) : Option (List UInt8 → Bool) :=
  if cmd = ascii "ping" then some pingCmd
  else if cmd = ascii "apply" then some applyCmd
  else if cmd = ascii "publish" then some publishCmd
  else none

def runPing (G : GoBson) (w : CliWorld) (digest : List UInt8) : CliEnd :=
  if w.writes then
    match (pingReply G (some digest) w.conn).1 with
    | .error _ => ⟨[sendPing w.now (some digest)], 1⟩
    | .ok _ => ⟨[sendPing w.now (some digest)], 0⟩
  else ⟨[], 1⟩

def runPublish (w : CliWorld) (topic : List UInt8) : CliEnd :=
  if topic = [] then ⟨[], 1⟩
  else if w.writes then ⟨[sendEvent w.now topic], 0⟩
  else ⟨[], 1⟩

/-- The second switch, with a connection. -/
def runCommand (G : GoBson) (w : CliWorld) (cmd : List UInt8) (values : Values) : CliEnd :=
  if cmd = ascii "ping" then
    runPing G w (if values digestFlag ≠ [] then values digestFlag else ascii "Hello World")
  else if cmd = ascii "publish" then runPublish w (values topicFlag)
  else ⟨[], 1⟩

/-- `main`; `log.Fatalf` and `invalidCommand` exit with status 1. -/
def vespaMain (G : GoBson) (args : List (List UInt8)) (w : CliWorld) : CliEnd :=
  match args with
  | _ :: cmd :: cmd_args =>
    match flagsOf cmd with
    | none => ⟨[], 1⟩
    | some defined =>
      match parse defined cmd_args noValues with
      | .error failure => ⟨[], exitOnError failure⟩
      | .ok (values, _) => if w.dials then runCommand G w cmd values else ⟨[], 1⟩
  | _ => ⟨[], 1⟩

/-! ## What a command line asks for -/

inductive CliRequest where
  | ping (digest : List UInt8)
  | publish (topic : List UInt8)
deriving DecidableEq, Repr

namespace CliRequest

def doc (t : GoTime) : CliRequest → List UInt8
  | .ping digest => sendPing t (some digest)
  | .publish topic => sendEvent t topic

def payload : CliRequest → Payload
  | .ping digest => .ping digest
  | .publish topic => .event topic

/-- The reply a request needs. -/
def Confirmed (G : GoBson) (conn : List UInt8) : CliRequest → Prop
  | .ping digest => ∃ pong, (pingReply G (some digest) conn).1 = .ok pong
  | .publish _ => True

end CliRequest

/-- The value of the last setting. -/
def lastSet (ss : List Setting) : List UInt8 := ((ss.map Setting.value).getLast?).getD []

def digestOf (ss : List Setting) : List UInt8 :=
  if lastSet ss ≠ [] then lastSet ss else ascii "Hello World"

/-- The command lines of a request: the command, its flag set any number of times and in
any of the ways to write it, and anything behind the flags. -/
inductive AsksFor : List (List UInt8) → CliRequest → Prop where
  | ping (program : List UInt8) {ss : List Setting} {tail rest : List (List UInt8)}
      (hss : ∀ s ∈ ss, s.Of pingCmd) (hstops : Stops tail rest) :
      AsksFor (program :: ascii "ping" :: (ss.flatMap Setting.words ++ tail))
        (.ping (digestOf ss))
  | publish (program : List UInt8) {ss : List Setting} {tail rest : List (List UInt8)}
      (hss : ∀ s ∈ ss, s.Of publishCmd) (hstops : Stops tail rest)
      (htopic : lastSet ss ≠ []) :
      AsksFor (program :: ascii "publish" :: (ss.flatMap Setting.words ++ tail))
        (.publish (lastSet ss))

/-- A command whose flags ask for help. -/
def AsksHelp (args : List (List UInt8)) : Prop :=
  ∃ program cmd cmd_args defined, args = program :: cmd :: cmd_args
    ∧ flagsOf cmd = some defined ∧ parse defined cmd_args noValues = .error .help

/-- With one flag in a set, its value is the last of all. -/
theorem foldl_apply_last {name : List UInt8} {ss : List Setting}
    (h : ∀ s ∈ ss, s.Of (· == name)) : ss.foldl Setting.apply noValues name = lastSet ss := by
  have hall : ss.filter (·.name == name) = ss :=
    List.filter_eq_self.mpr fun s hs => (h s hs).defined
  rw [foldl_apply, hall]
  rfl

/-- A request, made with a connection or without. -/
def CliRequest.run (G : GoBson) (w : CliWorld) : CliRequest → CliEnd
  | .ping digest => if w.dials then runPing G w digest else ⟨[], 1⟩
  | .publish topic => if w.dials then runPublish w topic else ⟨[], 1⟩

theorem flagsOf_ping : flagsOf (ascii "ping") = some pingCmd := if_pos rfl

theorem flagsOf_publish : flagsOf (ascii "publish") = some publishCmd := by
  rw [flagsOf, if_neg (by decide), if_neg (by decide), if_pos rfl]

theorem of_flagsOf {cmd : List UInt8} {defined : List UInt8 → Bool}
    (h : flagsOf cmd = some defined) : cmd = ascii "ping" ∧ defined = pingCmd
      ∨ cmd = ascii "apply" ∧ defined = applyCmd
      ∨ cmd = ascii "publish" ∧ defined = publishCmd := by
  unfold flagsOf at h
  split_ifs at h with hping happly hpublish
  · exact .inl ⟨hping, (Option.some.inj h).symm⟩
  · exact .inr (.inl ⟨happly, (Option.some.inj h).symm⟩)
  · exact .inr (.inr ⟨hpublish, (Option.some.inj h).symm⟩)

section
variable {G : GoBson} {args : List (List UInt8)} {w : CliWorld} {r : CliRequest}

/-- A command whose flags are settings. -/
theorem vespaMain_written {program cmd : List UInt8} {defined : List UInt8 → Bool}
    {ss : List Setting} {tail rest : List (List UInt8)} (hflags : flagsOf cmd = some defined)
    (hss : ∀ s ∈ ss, s.Of defined) (hstops : Stops tail rest) :
    vespaMain G (program :: cmd :: (ss.flatMap Setting.words ++ tail)) w
      = if w.dials then runCommand G w cmd (ss.foldl Setting.apply noValues) else ⟨[], 1⟩ := by
  simp only [vespaMain, hflags, parse_written hss hstops]

theorem runCommand_ping {ss : List Setting} (hss : ∀ s ∈ ss, s.Of pingCmd) :
    runCommand G w (ascii "ping") (ss.foldl Setting.apply noValues)
      = runPing G w (digestOf ss) := by
  have hvalue : ss.foldl Setting.apply noValues digestFlag = lastSet ss := foldl_apply_last hss
  rw [runCommand, if_pos rfl, hvalue]
  rfl

theorem runCommand_publish {ss : List Setting} (hss : ∀ s ∈ ss, s.Of publishCmd) :
    runCommand G w (ascii "publish") (ss.foldl Setting.apply noValues)
      = runPublish w (lastSet ss) := by
  have hvalue : ss.foldl Setting.apply noValues topicFlag = lastSet ss := foldl_apply_last hss
  rw [runCommand, if_neg (by decide), if_pos rfl, hvalue]

theorem runCommand_apply (values : Values) :
    runCommand G w (ascii "apply") values = ⟨[], 1⟩ := by
  rw [runCommand, if_neg (by decide), if_neg (by decide)]

theorem vespaMain_of_asks (h : AsksFor args r) : vespaMain G args w = r.run G w := by
  cases h with
  | ping program hss hstops =>
      rw [vespaMain_written flagsOf_ping hss hstops, runCommand_ping hss]
      rfl
  | publish program hss hstops =>
      rw [vespaMain_written flagsOf_publish hss hstops, runCommand_publish hss]
      rfl

theorem asksHelp_cons {program cmd : List UInt8} {cmd_args : List (List UInt8)} :
    AsksHelp (program :: cmd :: cmd_args) ↔ ∃ defined, flagsOf cmd = some defined
      ∧ parse defined cmd_args noValues = .error .help := by
  constructor
  · rintro ⟨_, _, _, defined, hargs, hflags, hparse⟩
    obtain ⟨-, hrest⟩ := List.cons.inj hargs
    obtain ⟨rfl, rfl⟩ := List.cons.inj hrest
    exact ⟨defined, hflags, hparse⟩
  · rintro ⟨defined, hflags, hparse⟩
    exact ⟨program, cmd, cmd_args, defined, rfl, hflags, hparse⟩

/-- Settings are no call for help. -/
theorem not_asksHelp_written (program : List UInt8) {cmd : List UInt8} {defined : List UInt8 → Bool}
    {ss : List Setting} {tail rest : List (List UInt8)} (hflags : flagsOf cmd = some defined)
    (hss : ∀ s ∈ ss, s.Of defined) (hstops : Stops tail rest) :
    ¬AsksHelp (program :: cmd :: (ss.flatMap Setting.words ++ tail)) := by
  rw [asksHelp_cons]
  rintro ⟨defined', hflags', hparse⟩
  obtain rfl := Option.some.inj (hflags.symm.trans hflags')
  rw [parse_written hss hstops] at hparse
  cases hparse

theorem not_asksHelp (h : AsksFor args r) : ¬AsksHelp args := by
  cases h with
  | ping program hss hstops => exact not_asksHelp_written program flagsOf_ping hss hstops
  | publish program hss hstops => exact not_asksHelp_written program flagsOf_publish hss hstops

/-- Any other command line writes nothing, and only a call for help ends with 0. -/
theorem vespaMain_of_not_asks (G : GoBson) (w : CliWorld) (h : ∀ r, ¬AsksFor args r) :
    ∃ status, vespaMain G args w = ⟨[], status⟩ ∧ (status = 0 ↔ AsksHelp args) := by
  cases args with
  | nil =>
      refine ⟨1, rfl, iff_of_false Nat.one_ne_zero ?_⟩
      rintro ⟨_, _, _, _, hargs, -⟩
      cases hargs
  | cons program args =>
      cases args with
      | nil =>
          refine ⟨1, rfl, iff_of_false Nat.one_ne_zero ?_⟩
          rintro ⟨_, _, _, _, hargs, -⟩
          cases hargs
      | cons cmd cmd_args =>
          rw [asksHelp_cons]
          cases hflags : flagsOf cmd with
          | none =>
              refine ⟨1, by simp only [vespaMain, hflags], iff_of_false Nat.one_ne_zero ?_⟩
              rintro ⟨_, hsome, -⟩
              cases hsome
          | some defined =>
              cases hparse : parse defined cmd_args noValues with
              | error failure =>
                  refine ⟨exitOnError failure, by simp only [vespaMain, hflags, hparse], ?_⟩
                  cases failure with
                  | help => exact iff_of_true rfl ⟨defined, rfl, hparse⟩
                  | usage =>
                      refine iff_of_false (by decide) ?_
                      rintro ⟨defined', hsome, hhelp⟩
                      obtain rfl := Option.some.inj hsome
                      rw [hparse] at hhelp
                      cases hhelp
              | ok result =>
                  obtain ⟨values, rest⟩ := result
                  obtain ⟨ss, tail, hss, rfl, hstops, rfl⟩ := parse_ok_iff.mp hparse
                  have hhelp := not_asksHelp_written program hflags hss hstops
                  rw [asksHelp_cons, hflags] at hhelp
                  refine ⟨1, ?_, iff_of_false Nat.one_ne_zero hhelp⟩
                  rw [vespaMain_written hflags hss hstops]
                  rcases of_flagsOf hflags with ⟨rfl, rfl⟩ | ⟨rfl, rfl⟩ | ⟨rfl, rfl⟩
                  · exact absurd (.ping program hss hstops) (h _)
                  · rw [runCommand_apply, ite_self]
                  · have htopic : lastSet ss = [] := by
                      by_contra htopic
                      exact h _ (.publish program hss hstops htopic)
                    rw [runCommand_publish hss, runPublish, if_pos htopic, ite_self]

theorem runPing_written (digest : List UInt8) :
    (runPing G w digest).written = if w.writes then [sendPing w.now (some digest)] else [] := by
  unfold runPing
  split_ifs
  · cases (pingReply G (some digest) w.conn).1 <;> rfl
  · rfl

theorem runPing_status (digest : List UInt8) : (runPing G w digest).status = 0 ↔
    w.writes ∧ ∃ pong, (pingReply G (some digest) w.conn).1 = .ok pong := by
  unfold runPing
  split_ifs with hwrites
  · rw [and_iff_right hwrites]
    cases (pingReply G (some digest) w.conn).1 <;> simp
  · exact iff_of_false (fun h => by cases h) fun h => hwrites h.1

theorem CliRequest.run_written (hr : ∀ topic, r = .publish topic → topic ≠ []) :
    (r.run G w).written = if w.dials && w.writes then [r.doc w.now] else [] := by
  cases r with
  | ping digest =>
      cases hdials : w.dials with
      | false => simp only [CliRequest.run, hdials, Bool.false_and, Bool.false_eq_true, if_false]
      | true =>
          simp only [CliRequest.run, hdials, if_true, Bool.true_and]
          exact runPing_written digest
  | publish topic =>
      simp only [CliRequest.run, runPublish, if_neg (hr topic rfl)]
      cases w.dials <;> cases w.writes <;> rfl

theorem CliRequest.run_status (hr : ∀ topic, r = .publish topic → topic ≠ []) :
    (r.run G w).status = 0 ↔ w.dials ∧ w.writes ∧ r.Confirmed G w.conn := by
  cases r with
  | ping digest =>
      cases hdials : w.dials with
      | false => simp [CliRequest.run, hdials]
      | true =>
          simp only [CliRequest.run, hdials, if_true, true_and]
          exact runPing_status digest
  | publish topic =>
      simp only [CliRequest.run, runPublish, if_neg (hr topic rfl), CliRequest.Confirmed]
      cases w.dials <;> cases w.writes <;> simp

theorem AsksFor.unique {r' : CliRequest} (h : AsksFor args r) (h' : AsksFor args r') :
    r = r' := by
  have hlast : ∀ {name : List UInt8} {ss ss' : List Setting} {tail rest tail' rest' : List _},
      (∀ s ∈ ss, s.Of (· == name)) → (∀ s ∈ ss', s.Of (· == name)) → Stops tail rest →
      Stops tail' rest' →
      ss.flatMap Setting.words ++ tail = ss'.flatMap Setting.words ++ tail' →
      lastSet ss = lastSet ss' := by
    intro name ss ss' tail rest tail' rest' hss hss' hstops hstops' hwords
    have hparse := parse_written hss hstops noValues
    rw [hwords, parse_written hss' hstops' noValues] at hparse
    have hvalues := (Prod.mk.inj (Except.ok.inj hparse)).1
    rw [← foldl_apply_last hss, ← foldl_apply_last hss', hvalues]
  generalize hargs : args = args' at h'
  cases h with
  | @ping program ss tail rest hss hstops =>
      cases h' with
      | @ping program' ss' tail' rest' hss' hstops' =>
          have hwords := (List.cons.inj (List.cons.inj hargs).2).2
          rw [digestOf, digestOf, hlast hss hss' hstops hstops' hwords]
      | publish =>
          have hcmd := (List.cons.inj (List.cons.inj hargs).2).1
          exact absurd hcmd (by decide)
  | @publish program ss tail rest hss hstops htopic =>
      cases h' with
      | ping =>
          have hcmd := (List.cons.inj (List.cons.inj hargs).2).1
          exact absurd hcmd (by decide)
      | @publish program' ss' tail' rest' hss' hstops' htopic' =>
          have hwords := (List.cons.inj (List.cons.inj hargs).2).2
          rw [hlast hss hss' hstops hstops' hwords]

theorem topic_ne_nil (h : AsksFor args r) : ∀ topic, r = .publish topic → topic ≠ [] := by
  cases h with
  | ping program hss hstops => exact fun _ h => by cases h
  | publish program hss hstops htopic =>
      intro topic h
      obtain rfl := CliRequest.publish.inj h
      exact htopic

end

/-- **What a command line does.** For every list of words and whatever the program meets:
it writes the one document that the words ask for, if it can connect and write,
and otherwise nothing; and it ends with status 0 exactly for a call for help, for
an event it wrote, and for a ping it wrote and was answered. -/
theorem cli_requests (G : GoBson) (args : List (List UInt8)) (w : CliWorld) :
    (∀ r, AsksFor args r →
        (vespaMain G args w).written = if w.dials && w.writes then [r.doc w.now] else [])
      ∧ ((∀ r, ¬AsksFor args r) → (vespaMain G args w).written = [])
      ∧ ((vespaMain G args w).status = 0 ↔ AsksHelp args
        ∨ w.dials ∧ w.writes ∧ ∃ r, AsksFor args r ∧ r.Confirmed G w.conn) := by
  refine ⟨fun r hr => ?_, fun hnone => ?_, ?_⟩
  · rw [vespaMain_of_asks hr]
    exact CliRequest.run_written (topic_ne_nil hr)
  · obtain ⟨status, hmain, -⟩ := vespaMain_of_not_asks G w hnone
    rw [hmain]
  · by_cases hasks : ∃ r, AsksFor args r
    · obtain ⟨r, hr⟩ := hasks
      have hmain : vespaMain G args w = r.run G w := vespaMain_of_asks hr
      rw [hmain, CliRequest.run_status (topic_ne_nil hr), or_iff_right (not_asksHelp hr)]
      constructor
      · rintro ⟨hdials, hwrites, hconfirmed⟩
        exact ⟨hdials, hwrites, r, hr, hconfirmed⟩
      · rintro ⟨hdials, hwrites, r', hr', hconfirmed⟩
        rw [hr.unique hr']
        exact ⟨hdials, hwrites, hconfirmed⟩
    · push Not at hasks
      obtain ⟨status, hmain, hstatus⟩ := vespaMain_of_not_asks G w hasks
      rw [hmain, hstatus]
      refine ⟨.inl, fun h => h.elim id ?_⟩
      rintro ⟨-, -, r, hr, -⟩
      exact absurd hr (hasks r)

/-! ## The program and the hive -/

section
variable {lib lib' : Libbson}

/-- The bytes of a ping or an event say which it is. -/
theorem WireMessage.payload_of_bytes_eq {m : WireMessage lib} {m' : WireMessage lib'}
    (hasks : m'.payload.kind = .ping ∨ m'.payload.kind = .event) (h : m.bytes = m'.bytes) :
    m.payload = m'.payload := by
  have hfields := m.fields_bytes
  rw [h, m'.fields_bytes] at hfields
  simp only [messageFields, List.cons.injEq, Element.mk.injEq, Value.int32.injEq,
    Value.document.injEq, true_and, and_true] at hfields
  obtain ⟨hcode, -, hdata⟩ := hfields
  have hkind : m'.payload.kind = m.payload.kind := by
    have hof := Kind.ofCode?_code m'.payload.kind
    rw [hcode, Kind.ofCode?_code] at hof
    exact (Option.some.inj hof).symm
  have hpayload := m.fields_data
  rw [← hdata, m'.fields_data] at hpayload
  cases hm' : m'.payload with
  | ping digest =>
      cases hm : m.payload with
      | ping digest' =>
          rw [hm, hm'] at hpayload
          simpa [payloadFields] using hpayload.symm
      | event | pong | error =>
          rw [hm, hm'] at hkind
          cases hkind
  | event topic =>
      cases hm : m.payload with
      | event topic' =>
          rw [hm, hm'] at hpayload
          simpa [payloadFields] using hpayload.symm
      | ping | pong | error =>
          rw [hm, hm'] at hkind
          cases hkind
  | pong | error =>
      rw [hm'] at hasks
      rcases hasks with h | h <;> cases h

theorem CliRequest.doc_eq (r : CliRequest) (t : GoTime) : r.doc t
    = encodeDoc (messageFields r.payload.kind (.dateTime t.millis) (payloadFields r.payload)) := by
  cases r <;> rfl

theorem CliRequest.fits_message (r : CliRequest) (t : GoTime)
    (hfits : (r.doc t).length ≤ maxSize) : (encodeDoc (messageFields r.payload.kind
      (.dateTime t.millis) (payloadFields r.payload))).length ≤ maxSize := by
  rw [← r.doc_eq t]
  exact hfits

theorem isStamp_millis (t : GoTime) : IsStamp (.dateTime t.millis) := .dateTime _

theorem CliRequest.textOK (r : CliRequest) :
    r.payload.texts.all Libbson.lenient.textOK = true := by
  cases r <;> rfl

/-- The document of a request, as a message of a library that takes any text. -/
def CliRequest.message (r : CliRequest) (t : GoTime) (hfits : (r.doc t).length ≤ maxSize) :
    WireMessage .lenient :=
  ⟨.dateTime t.millis, r.payload, isStamp_millis t, r.fits_message t hfits, r.textOK⟩

theorem CliRequest.bytes_message (r : CliRequest) (t : GoTime)
    (hfits : (r.doc t).length ≤ maxSize) : (r.message t hfits).bytes = r.doc t :=
  (r.doc_eq t).symm

/-- A pong that has not all arrived is an error. -/
theorem pingReply_of_prefix (G : GoBson) {digest conn : List UInt8}
    (hfits : (pongDoc digest).length ≤ maxSize) (h : conn <+: pongDoc digest) :
    (∃ pong, (pingReply G (some digest) conn).1 = .ok pong) ↔ conn = pongDoc digest := by
  constructor
  · rintro ⟨pong, hpong⟩
    by_contra hne
    have hlt : conn.length < (pongDoc digest).length := by
      rcases Nat.lt_or_ge conn.length (pongDoc digest).length with hlt | hge
      · exact hlt
      · exact absurd (h.eq_of_length_le hge) hne
    have hhead := headerOK_iff.mp (headerOK_encodeDoc hfits)
    have hrefused : ∃ err, Refused G conn err := by
      by_cases h4 : 4 ≤ conn.length
      · have hannounced : announced conn = (pongDoc digest).length := by
          have hlead : leNat ((pongDoc digest).take 4) = (pongDoc digest).length := hhead.2.2.1
          obtain ⟨rest, hrest⟩ := h
          rw [announced, ← hlead, ← hrest, List.take_append_of_le_length h4]
        exact ⟨_, .short h4 (by rw [hannounced]; exact hhead.1) (by rw [hannounced]; exact hlt)⟩
      · exact ⟨_, .document (Nat.lt_of_not_le h4)⟩
    obtain ⟨err, hrefused⟩ := hrefused
    have hread := goReadMessage_of_refused hrefused
    have hdecode : (decodePong G conn).1 = .error (.response err) := by
      unfold decodePong
      generalize goReadMessage G conn = read at hread ⊢
      obtain ⟨result, left⟩ := read
      obtain rfl : result = .error err := hread
      rfl
    have hreply : (pingReply G (some digest) conn).1 = .error (.response err) := by
      unfold pingReply
      generalize decodePong G conn = decoded at hdecode ⊢
      obtain ⟨result, left⟩ := decoded
      obtain rfl : result = .error (.response err) := hdecode
      rfl
    rw [hreply] at hpong
    cases hpong
  · rintro rfl
    have hdecode := decodePong_append G [] hfits
    rw [List.append_nil] at hdecode
    refine ⟨some digest, ?_⟩
    have hdecode : decodePong G (pongDoc digest) = (.ok ⟨some digest⟩, []) := hdecode
    simp [pingReply, hdecode]

variable {s : Hub lib} {c : ClientId} {r : CliRequest}

/-- The requests of a client that sent one document are that document's. -/
theorem sent_of_written {t : GoTime}
    (hsent : (s.peer c).sent.map (fun q => q.bytes) = [r.doc t]) :
    ∃ q, (s.peer c).sent = [q] ∧ q.payload = r.payload := by
  obtain ⟨q, hq, hbytes⟩ := List.map_eq_singleton_iff.mp hsent
  have hfits : (r.doc t).length ≤ maxSize := hbytes ▸ q.fits
  have hsame : q.bytes = (r.message t hfits).bytes := hbytes.trans (r.bytes_message t hfits).symm
  refine ⟨q, hq, WireMessage.payload_of_bytes_eq ?_ hsame⟩
  cases r
  · exact .inl rfl
  · exact .inr rfl

end

/-- What became of a request. The hive called a handler for it at most once, with what
was asked for; a ping ends with status 0 exactly when its pong is there, and then the
hive did call `OnPing`; an event gets no answer. -/
structure Concluded {lib : Libbson} (s : Hub lib) (c : ClientId) (status : Nat) (r : CliRequest) :
    Prop where
  once : (s.callsOf c).length ≤ 1
  calls : ∀ call ∈ s.callsOf c, call.kind = r.payload.kind
    ∧ ∃ t, call.message.view? = some ⟨t, r.payload⟩
  pong : ∀ digest, r = .ping digest →
    (status = 0 ↔ (s.peer c).received = pongDoc digest)
      ∧ (status = 0 → ∃ call, s.callsOf c = [call] ∧ call.returned = some true)
  event : ∀ topic, r = .publish topic → (s.peer c).received = []

section
variable {lib : Libbson} {s : Hub lib} {c : ClientId} {r : CliRequest}

theorem pongDoc_ne_nil (digest : List UInt8) : pongDoc digest ≠ [] := by
  intro h
  have hlen := length_encodeDoc (pongFields digest)
  have hnil : (encodeDoc (pongFields digest)).length = 0 := congrArg List.length h
  omega

/-- What the hive has read of a client that sent at most one request. -/
theorem handled_cases (hserved : Served s c) {q : Request lib} (hsent : (s.peer c).sent = [q]) :
    s.handled c = [] ∧ s.callsOf c = []
      ∨ s.handled c = [q] ∧ ∃ call, s.callsOf c = [call] ∧ Answered c call q := by
  have hsplit : (s.peer c).sent = s.handled c ++ s.waiting c :=
    (List.take_append_drop _ _).symm
  have hcalls := hserved.calls
  rw [hsent] at hsplit
  cases hhandled : s.handled c with
  | nil =>
      rw [hhandled] at hcalls
      exact .inl ⟨rfl, List.forall₂_nil_right_iff.mp hcalls⟩
  | cons q' rest =>
      rw [hhandled] at hsplit hcalls
      obtain ⟨rfl, hrest⟩ := List.cons.inj hsplit
      obtain ⟨rfl, -⟩ := List.append_eq_nil_iff.mp hrest.symm
      obtain ⟨call, calls, hanswered, hnil, hcalls⟩ := List.forall₂_cons_right_iff.mp hcalls
      obtain rfl := List.forall₂_nil_right_iff.mp hnil
      exact .inr ⟨rfl, call, hcalls, hanswered⟩

theorem pinged_cases (hserved : Served s c) {q : Request lib} (hsent : (s.peer c).sent = [q]) :
    s.pinged c = [] ∨ s.pinged c = q.payload.digest?.toList := by
  rcases handled_cases hserved hsent with ⟨hhandled, -⟩ | ⟨hhandled, -⟩ <;>
    rw [Hub.pinged, hhandled]
  · exact .inl rfl
  · cases hdigest : q.payload.digest? <;> simp [hdigest]

theorem received_nil (hserved : Served s c) (hpinged : s.pinged c = []) :
    (s.peer c).received = [] := by
  have hreceived := hserved.received
  rw [hpinged] at hreceived
  exact List.prefix_nil.mp hreceived

/-- A client that sent nothing is not heard and hears nothing. -/
theorem Concluded.of_not_sent (hserved : Served s c) (hsent : (s.peer c).sent = [])
    {status : Nat} (hstatus : status ≠ 0) : Concluded s c status r := by
  have hhandled : s.handled c = [] := by
    rw [Hub.handled, hsent, List.take_nil]
  have hcalls : s.callsOf c = [] := by
    have hcalls := hserved.calls
    rw [hhandled] at hcalls
    exact List.forall₂_nil_right_iff.mp hcalls
  have hreceived : (s.peer c).received = [] :=
    received_nil hserved (by rw [Hub.pinged, hhandled]; rfl)
  refine ⟨by rw [hcalls]; exact Nat.zero_le _, fun call hcall => ?_, fun digest _ => ⟨?_, ?_⟩,
    fun _ _ => hreceived⟩
  · rw [hcalls] at hcall
    cases hcall
  · rw [hreceived]
    exact iff_of_false hstatus (pongDoc_ne_nil digest).symm
  · exact fun h => absurd h hstatus

/-- A client that sent one request. -/
theorem Concluded.of_sent (hserved : Served s c) {q : Request lib}
    (hsent : (s.peer c).sent = [q]) (hq : q.payload = r.payload) {status : Nat}
    (hstatus : ∀ digest, r = .ping digest →
      (status = 0 ↔ (s.peer c).received = pongDoc digest)) : Concluded s c status r := by
  have hevent : ∀ topic, r = .publish topic → (s.peer c).received = [] := by
    intro topic hr
    refine received_nil hserved ?_
    have hnone : q.payload.digest? = none := by
      rw [hq, hr]
      rfl
    rcases pinged_cases hserved hsent with hpinged | hpinged
    · exact hpinged
    · rw [hpinged, hnone]
      rfl
  rcases handled_cases hserved hsent with ⟨hhandled, hcalls⟩ | ⟨hhandled, call, hcalls, hanswered⟩
  · have hreceived : (s.peer c).received = [] :=
      received_nil hserved (by rw [Hub.pinged, hhandled]; rfl)
    refine ⟨by rw [hcalls]; exact Nat.zero_le _, fun call hcall => ?_,
      fun digest hr => ⟨hstatus digest hr, fun h => ?_⟩, hevent⟩
    · rw [hcalls] at hcall
      cases hcall
    · have hpong := (hstatus digest hr).mp h
      rw [hreceived] at hpong
      exact absurd hpong.symm (pongDoc_ne_nil digest)
  · refine ⟨by rw [hcalls]; exact Nat.le_refl _, fun call' hcall => ?_,
      fun digest hr => ⟨hstatus digest hr, fun _ => ⟨call, hcalls, hanswered.ping ?_⟩⟩, hevent⟩
    · rw [hcalls] at hcall
      obtain rfl := List.mem_singleton.mp hcall
      refine ⟨hq ▸ hanswered.kind, iterInt64 q.stamp, ?_⟩
      rw [hanswered.message, WireMessage.decoded, hq]
    · rw [hq, hr]
      rfl

end

/-- **The command line and the hive.** In every state that the hive can be in, with
whatever other clients, the request of a client that is a run of the program is
concluded. -/
theorem hub_serves_cli {lib : Libbson} {s : Hub lib} (hs : (hubMachine lib).Reachable s)
    {c : ClientId} (G : GoBson) {args : List (List UInt8)} {w : CliWorld} {r : CliRequest}
    (hasks : AsksFor args r)
    (hsent : (s.peer c).sent.map (fun q => q.bytes) = (vespaMain G args w).written)
    (hconn : w.conn = (s.peer c).received) :
    Concluded s c (vespaMain G args w).status r := by
  obtain ⟨handled, waiting, haccount⟩ := ((hub_invariant lib).reachable hs).account c
  have hserved := haccount.served
  have hmain : vespaMain G args w = r.run G w := vespaMain_of_asks hasks
  have hwritten : (r.run G w).written = if w.dials && w.writes then [r.doc w.now] else [] :=
    CliRequest.run_written (topic_ne_nil hasks)
  have hstatus : (r.run G w).status = 0 ↔ w.dials ∧ w.writes ∧ r.Confirmed G w.conn :=
    CliRequest.run_status (topic_ne_nil hasks)
  rw [hmain, hwritten] at hsent
  rw [hmain]
  by_cases hio : (w.dials && w.writes) = true
  · rw [if_pos hio] at hsent
    obtain ⟨hdials, hwrites⟩ := (Bool.and_eq_true ..).mp hio
    obtain ⟨q, hq, hpayload⟩ := sent_of_written hsent
    refine .of_sent hserved hq hpayload fun digest hr => ?_
    subst hr
    have hdigest : q.payload.digest? = some digest := by
      rw [hpayload]
      rfl
    have hprefix : (s.peer c).received <+: pongDoc digest := by
      have hreceived := hserved.received
      rcases pinged_cases hserved hq with hpinged | hpinged <;> rw [hpinged] at hreceived
      · rw [List.prefix_nil.mp hreceived]
        exact List.nil_prefix
      · rw [hdigest] at hreceived
        simpa using hreceived
    rw [hstatus, and_iff_right hdials, and_iff_right hwrites, hconn]
    exact pingReply_of_prefix G (fits_digest hdigest) hprefix
  · rw [if_neg hio] at hsent
    refine .of_not_sent hserved (List.map_eq_nil_iff.mp hsent) fun h => hio ?_
    obtain ⟨hdials, hwrites, -⟩ := hstatus.mp h
    exact (Bool.and_eq_true ..).mpr ⟨hdials, hwrites⟩

theorem epoch_nsec : 0 < 1000000000 := by decide

def epoch : GoTime := ⟨0, 0, epoch_nsec⟩

theorem onePing_fits : (sendPing epoch (some [7])).length ≤ maxSize := by decide +kernel

/-- A client that pings and is answered. -/
def onePing : List (HubEvent .lenient) :=
  [.connect 0 true, .send 0 (.ping .lenient epoch [7] onePing_fits), .deliver 0 59 blank,
    .written 0 0 0]

/-- `vespa ping -digest` with a digest of one byte. -/
def oneSetting : List Setting := [⟨digestFlag, [7], false, false⟩]

theorem one_ping_concluded : ∃ s, (hubMachine .lenient).exec (idleHub .lenient) onePing = some s
    ∧ ∃ call, s.callsOf 0 = [call] ∧ call.returned = some true := by
  have hruns : (((hubMachine .lenient).exec (idleHub .lenient) onePing).any fun s =>
      (s.peer 0).sent.map (fun q => q.bytes) == [sendPing epoch (some [7])]
        && (s.peer 0).received == pongDoc [7]) = true := by
    decide +kernel
  obtain ⟨s, hs, hpeer⟩ := (Option.any_eq_true _ _).mp hruns
  obtain ⟨hsent, hreceived⟩ := (Bool.and_eq_true ..).mp hpeer
  let w : CliWorld := ⟨true, true, epoch, (s.peer 0).received⟩
  have hss : ∀ x ∈ oneSetting, x.Of pingCmd := by
    intro x hx
    obtain rfl := List.mem_singleton.mp hx
    exact ⟨rfl, ⟨⟨100, _, rfl, by decide⟩, by decide⟩⟩
  obtain ⟨args, hasks⟩ : ∃ args, AsksFor args (.ping [7]) := ⟨_, AsksFor.ping [] hss .nil⟩
  have hwritten : (vespaMain .plain args w).written = [sendPing epoch (some [7])] := by
    rw [vespaMain_of_asks hasks, CliRequest.run_written (topic_ne_nil hasks)]
    rfl
  have hpong := (hub_serves_cli ((idleHub_reachable .lenient).exec hs) .plain hasks
    ((beq_iff_eq.mp hsent).trans hwritten.symm) rfl).pong [7] rfl
  exact ⟨s, hs, hpong.2 (hpong.1.mpr (beq_iff_eq.mp hreceived))⟩

end Vespa
