import Vespa.Message
import Vespa.WorkerProgram

/-!
# What a guest can print (`sandbox_bindings.c`)

`VespaPrint` is the one function a guest can call outside its sandbox. The
runtime checks that the buffer lies in the guest's linear memory; the length
then goes to `printf` as the precision of a `%.*s`, which is an `int`. From
2^31 on it is negative there, which counts as no precision at all, and the
bytes are read up to a NUL wherever that is.

So what is printed depends on the buffers alone exactly when each is shorter
than 2^31 bytes or has a NUL in it. `printf` counts what it writes in an `int`,
too, and a line that it cannot count need not be written whole. For the others
the worker program prints what the guest's `init` was asked to print, and nothing
of `view` and `update`.
-/

namespace Vespa

/-- A call of `VespaPrint`: the guest's linear memory, of whole pages, what the process
has behind it, and the buffer, which has passed the runtime's check. -/
structure PrintCall where
  memory : List UInt8
  beyond : List UInt8
  offset : BitVec 32
  message_len : BitVec 32
  pages : 65536 ∣ memory.length
  size : memory.length ≤ 2 ^ 32
  checked : offset.toNat + message_len.toNat ≤ memory.length

theorem takeWhile_append_of_mem {xs ys : List UInt8} (h : 0 ∈ xs) :
    (xs ++ ys).takeWhile (· != 0) = xs.takeWhile (· != 0) := by
  induction xs with
  | nil => cases h
  | cons x xs ih =>
      by_cases hx : x = 0
      · rw [hx]
        rfl
      · have hmem : 0 ∈ xs := (List.mem_cons.mp h).resolve_left fun h => hx h.symm
        rw [List.cons_append, List.takeWhile_cons_of_pos (by simpa using hx),
          List.takeWhile_cons_of_pos (by simpa using hx), ih hmem]

namespace PrintCall

/-- The buffer. -/
def passed (c : PrintCall) : List UInt8 :=
  (c.memory.drop c.offset.toNat).take c.message_len.toNat

/-- What the pointer points at. -/
def message (c : PrintCall) : List UInt8 := c.memory.drop c.offset.toNat ++ c.beyond

end PrintCall

/-- What `%.*s` writes of the bytes at a pointer. Without a NUL among them all the bytes
the precision asks for have to be there. -/
def formatString (precision : Int) (s : List UInt8) : Except Halt (List UInt8) :=
  let shown := if 0 ≤ precision then s.take precision.toNat else s
  if 0 ∈ shown ∨ 0 ≤ precision ∧ precision.toNat ≤ s.length then
    .ok (shown.takeWhile (· != 0))
  else .error .undefined

/-- What the C library's `printf` writes of a line; it is sure to be all of it as long as
an `int` can count it. -/
structure Printf where
  write : List UInt8 → List UInt8
  whole : ∀ line, line.length < 2 ^ 31 → write line = line

def vespaPrintImpl (printf : Printf) (message : List UInt8) (message_len : BitVec 32) :
    Except Halt (List UInt8) :=
  (formatString message_len.toInt message).map fun shown =>
    printf.write (ascii "WASM: " ++ shown ++ [10])

/-- What the calls of a guest print, one after another. -/
def prints (printf : Printf) : List PrintCall → Except Halt (List UInt8)
  | [] => .ok []
  | c :: cs => do
    let out ← vespaPrintImpl printf c.message c.message_len
    let rest ← prints printf cs
    return out ++ rest

/-- The line of a buffer. -/
def printLine (passed : List UInt8) : List UInt8 :=
  ascii "WASM: " ++ passed.takeWhile (· != 0) ++ [10]

/-! ## One call -/

section
variable {printf : Printf}

namespace PrintCall

variable (c : PrintCall)

theorem length_passed : c.passed.length = c.message_len.toNat := by
  have := c.checked
  rw [passed, List.length_take, List.length_drop]
  omega

/-- A length that is a precision, or a buffer that ends. -/
def Bounded : Prop := c.passed.length < 2 ^ 31 ∨ 0 ∈ c.passed

/-- A line that `printf` can count. -/
def Countable : Prop := (printLine c.passed).length < 2 ^ 31

theorem message_eq : c.message = c.passed ++ c.message.drop c.message_len.toNat := by
  have hpassed : c.passed = c.message.take c.message_len.toNat := by
    have := c.checked
    rw [passed, message, List.take_append_of_le_length]
    rw [List.length_drop]
    omega
  rw [hpassed, List.take_append_drop]

/-- **A bounded call prints its buffer's line.** -/
theorem print_of_bounded (h : c.Bounded) :
    vespaPrintImpl printf c.message c.message_len = .ok (printf.write (printLine c.passed)) := by
  have hlen := c.length_passed
  have hle : c.message_len.toNat ≤ c.message.length := by
    rw [c.message_eq, List.length_append]
    omega
  by_cases hshort : c.message_len.toNat < 2 ^ 31
  · have hint : c.message_len.toInt = c.message_len.toNat :=
      BitVec.toInt_eq_toNat_of_lt (by omega)
    have htake : c.message.take c.message_len.toNat = c.passed := by
      rw [c.message_eq]
      exact List.take_left' hlen
    unfold vespaPrintImpl formatString
    rw [hint, if_pos (Int.natCast_nonneg _), Int.toNat_natCast,
      if_pos (.inr ⟨Int.natCast_nonneg _, hle⟩), htake]
    rfl
  · have hnul : 0 ∈ c.passed := h.resolve_left (by omega)
    have hneg : ¬0 ≤ c.message_len.toInt := by
      rw [BitVec.toInt_eq_toNat_cond]
      omega
    have hmem : 0 ∈ c.message := by
      rw [c.message_eq]
      exact List.mem_append_left _ hnul
    unfold vespaPrintImpl formatString
    rw [if_neg hneg, if_pos (.inl hmem), c.message_eq, takeWhile_append_of_mem hnul]
    rfl

/-- **Any other call** reads on behind its buffer. -/
theorem print_of_not_bounded (h : ¬c.Bounded) :
    vespaPrintImpl printf c.message c.message_len
      = if 0 ∈ c.message then .ok (printf.write (printLine c.message))
        else .error .undefined := by
  obtain ⟨hlong, -⟩ := not_or.mp h
  rw [c.length_passed] at hlong
  have hneg : ¬0 ≤ c.message_len.toInt := by
    rw [BitVec.toInt_eq_toNat_cond]
    omega
  unfold vespaPrintImpl formatString
  rw [if_neg hneg]
  by_cases hmem : 0 ∈ c.message
  · rw [if_pos (.inl hmem), if_pos hmem]
    rfl
  · rw [if_neg fun h => h.elim hmem fun h => hneg h.1, if_neg hmem]
    rfl

/-- What is in front of a buffer that ends with a page. -/
def pad : Nat := 65536 - c.message_len.toNat % 65536

/-- The same buffer at the end of the memory, without a NUL in front, and with these
bytes behind it. -/
def atEnd (beyond : List UInt8) : PrintCall where
  memory := List.replicate c.pad 1 ++ c.passed
  beyond := beyond
  offset := BitVec.ofNat 32 c.pad
  message_len := c.message_len
  pages := by
    rw [List.length_append, List.length_replicate, c.length_passed, pad]
    omega
  size := by
    rw [List.length_append, List.length_replicate, c.length_passed, pad]
    omega
  checked := by
    rw [List.length_append, List.length_replicate, c.length_passed, BitVec.toNat_ofNat, pad]
    omega

theorem drop_atEnd (beyond : List UInt8) :
    (c.atEnd beyond).memory.drop (c.atEnd beyond).offset.toNat = c.passed := by
  have hoffset : (c.atEnd beyond).offset.toNat = c.pad := by
    show (BitVec.ofNat 32 c.pad).toNat = c.pad
    rw [BitVec.toNat_ofNat, pad]
    omega
  rw [hoffset]
  exact List.drop_left' List.length_replicate

@[simp] theorem passed_atEnd (beyond : List UInt8) : (c.atEnd beyond).passed = c.passed := by
  rw [passed, c.drop_atEnd]
  exact List.take_of_length_le (Nat.le_of_eq c.length_passed)

theorem message_atEnd (beyond : List UInt8) : (c.atEnd beyond).message = c.passed ++ beyond := by
  rw [message, c.drop_atEnd]
  rfl

theorem bounded_atEnd (beyond : List UInt8) : (c.atEnd beyond).Bounded ↔ c.Bounded := by
  rw [Bounded, passed_atEnd, Bounded]

end PrintCall

/-! ## The calls of a guest -/

theorem prints_cons {c : PrintCall} {out : List UInt8}
    (h : vespaPrintImpl printf c.message c.message_len = .ok out) (cs : List PrintCall) :
    prints printf (c :: cs) = (prints printf cs).map (out ++ ·) := by
  rw [prints, h]
  cases prints printf cs <;> rfl

/-- **Bounded calls print the lines of their buffers**, as far as `printf` writes them. -/
theorem prints_of_bounded {cs : List PrintCall} (h : ∀ c ∈ cs, c.Bounded) :
    prints printf cs
      = .ok ((cs.map PrintCall.passed).flatMap fun passed => printf.write (printLine passed)) := by
  induction cs with
  | nil => rfl
  | cons c cs ih =>
      rw [prints_cons (c.print_of_bounded (h c List.mem_cons_self)),
        ih fun c hc => h c (List.mem_cons_of_mem _ hc)]
      rfl

/-- Lines that can be counted are written whole. -/
theorem flatMap_write {cs : List PrintCall} (h : ∀ c ∈ cs, c.Countable) :
    ((cs.map PrintCall.passed).flatMap fun passed => printf.write (printLine passed))
      = (cs.map PrintCall.passed).flatMap printLine := by
  rw [List.flatMap_map, List.flatMap_map]
  exact List.flatMap_congr fun c hc => printf.whole _ (h c hc)

/-- With a NUL behind the memory every call returns. -/
theorem exists_prints_of_nul (printf : Printf) (cs : List PrintCall) (h : ∀ c ∈ cs, 0 ∈ c.message) :
    ∃ out, prints printf cs = .ok out := by
  induction cs with
  | nil => exact ⟨[], rfl⟩
  | cons c cs ih =>
      obtain ⟨rest, hrest⟩ := ih fun c hc => h c (List.mem_cons_of_mem _ hc)
      obtain ⟨out, hout⟩ : ∃ out, vespaPrintImpl printf c.message c.message_len = .ok out := by
        by_cases hc : c.Bounded
        · exact ⟨_, c.print_of_bounded hc⟩
        · exact ⟨_, by rw [c.print_of_not_bounded hc, if_pos (h c List.mem_cons_self)]⟩
      rw [prints_cons hout, hrest]
      exact ⟨_, rfl⟩

/-- A call that leaves defined behaviour takes the others with it. -/
theorem prints_of_undefined {cs : List PrintCall} {c : PrintCall} (hc : c ∈ cs)
    (h : vespaPrintImpl printf c.message c.message_len = .error .undefined) :
    ∃ halt, prints printf cs = .error halt := by
  induction cs with
  | nil => cases hc
  | cons d cs ih =>
      cases hd : vespaPrintImpl printf d.message d.message_len with
      | error halt =>
          rw [prints, hd]
          exact ⟨halt, rfl⟩
      | ok out =>
          rcases List.mem_cons.mp hc with rfl | hc
          · rw [h] at hd
            cases hd
          · obtain ⟨halt, hhalt⟩ := ih hc
            rw [prints_cons hd, hhalt]
            exact ⟨halt, rfl⟩

/-- **When a guest can print only what it passes**: whatever its memory and the memory of
the host, the same buffers print the same, exactly when each of them is shorter
than 2^31 bytes or has a NUL in it. What is printed then is a line for each, as far
as `printf` writes it, and the whole of it if that can count it. -/
theorem prints_passed_iff (printf : Printf) (cs : List PrintCall) :
    ((∀ cs' : List PrintCall, cs'.map PrintCall.passed = cs.map PrintCall.passed →
        prints printf cs' = prints printf cs) ↔ ∀ c ∈ cs, c.Bounded)
      ∧ ((∀ c ∈ cs, c.Bounded) → prints printf cs
        = .ok ((cs.map PrintCall.passed).flatMap fun passed => printf.write (printLine passed)))
      ∧ ((∀ c ∈ cs, c.Bounded ∧ c.Countable) →
        prints printf cs = .ok ((cs.map PrintCall.passed).flatMap printLine)) := by
  refine ⟨⟨fun hsame c hc => ?_, fun h cs' hcs' => ?_⟩, prints_of_bounded, fun h => ?_⟩
  · by_contra hbound
    have hpassed : ∀ beyond, (cs.map (PrintCall.atEnd · beyond)).map PrintCall.passed
        = cs.map PrintCall.passed := by
      intro beyond
      rw [List.map_map]
      exact List.map_congr_left fun c _ => c.passed_atEnd beyond
    -- with a NUL behind the memory all is well, with nothing there it is not
    have hnul : ∀ c ∈ cs.map (PrintCall.atEnd · [0]), 0 ∈ c.message := by
      intro c hc
      obtain ⟨d, -, rfl⟩ := List.mem_map.mp hc
      rw [d.message_atEnd]
      simp
    obtain ⟨out, hout⟩ := exists_prints_of_nul printf _ hnul
    have hundefined : vespaPrintImpl printf (c.atEnd []).message (c.atEnd []).message_len
        = .error .undefined := by
      rw [(c.atEnd []).print_of_not_bounded (by rwa [c.bounded_atEnd]), c.message_atEnd,
        List.append_nil, if_neg fun h => hbound (.inr h)]
    obtain ⟨halt, hhalt⟩ := prints_of_undefined
      (List.mem_map_of_mem (f := (PrintCall.atEnd · [])) hc) hundefined
    rw [hsame _ (hpassed [0])] at hout
    rw [hsame _ (hpassed []), hout] at hhalt
    cases hhalt
  · have hbound' : ∀ c ∈ cs', c.Bounded := by
      intro c' hc'
      have hmem := List.mem_map_of_mem (f := PrintCall.passed) hc'
      rw [hcs'] at hmem
      obtain ⟨c, hc, hpassed⟩ := List.mem_map.mp hmem
      have hbound := h c hc
      rwa [PrintCall.Bounded, hpassed] at hbound
    rw [prints_of_bounded h, prints_of_bounded hbound', hcs']
  · rw [prints_of_bounded fun c hc => (h c hc).1, flatMap_write fun c hc => (h c hc).2]

end

/-! ## The worker program -/

/-- The functions of a guest: the calls each makes, and what it returns. -/
structure Widget (R : Wamr) where
  calls : R.Function → List PrintCall
  returns : R.Function → Option (BitVec 32)

variable {R : Wamr}

/-- The guest, with the calls it has made. -/
def Widget.guest (W : Widget R) : Guest R (List PrintCall) :=
  ⟨fun f made => (W.returns f, made ++ W.calls f)⟩

/-- **What the worker program prints** when it ends with a status, for a guest whose calls
are bounded and whose lines can be counted: the lines of `init`, whatever that said,
and nothing where there was no event loop. -/
theorem worker_prints (printf : Printf) (P : WorkerProgram R) (W : Widget R)
    (hbound : ∀ f, ∀ c ∈ W.calls f, c.Bounded ∧ c.Countable) {status : Nat}
    (h : (P.main W.guest ⟨[], []⟩).exit = .ok status) :
    ((∀ filename, ¬P.Started filename)
        ∧ prints printf (P.main W.guest ⟨[], []⟩).guest.memory = .ok [])
      ∨ ∃ filename p, P.Started filename ∧ (P.call filename).Complete p
        ∧ prints printf (P.main W.guest ⟨[], []⟩).guest.memory
          = .ok (((W.calls (p.func .init)).map PrintCall.passed).flatMap printLine) := by
  have hcourse := P.course_main W.guest ⟨[], []⟩
  generalize P.main W.guest ⟨[], []⟩ = e at hcourse h ⊢
  cases hcourse with
  | noLoop hstart => exact .inl ⟨hstart, rfl⟩
  | incomplete => cases h
  | @complete filename p _ hstart hp =>
      refine .inr ⟨filename, p, hstart, hp, ?_⟩
      have hcalls := hbound (p.func .init)
      exact (prints_of_bounded fun c hc => (hcalls c hc).1).trans
        (congrArg _ (flatMap_write fun c hc => (hcalls c hc).2))

/-- What the functions of `wasm-zig-example` print. -/
def exampleText : Export → List UInt8
  | .init => ascii "Cross-library payload"
  | .view => ascii "zig view"
  | .update => ascii "zig update"

/-- A text at the start of a page. -/
def pageCall (text : List UInt8) (h : text.length ≤ 65536) : PrintCall where
  memory := text ++ List.replicate (65536 - text.length) 0
  beyond := []
  offset := 0
  message_len := BitVec.ofNat 32 text.length
  pages := by
    rw [List.length_append, List.length_replicate]
    omega
  size := by
    rw [List.length_append, List.length_replicate]
    omega
  checked := by
    have hzero : (0 : BitVec 32).toNat = 0 := rfl
    rw [List.length_append, List.length_replicate, BitVec.toNat_ofNat, hzero]
    omega

theorem passed_pageCall (text : List UInt8) (h : text.length ≤ 65536) :
    (pageCall text h).passed = text := by
  have hlen : (BitVec.ofNat 32 text.length).toNat = text.length := by
    rw [BitVec.toNat_ofNat]
    omega
  show ((text ++ List.replicate (65536 - text.length) 0).drop 0).take
    (BitVec.ofNat 32 text.length).toNat = text
  rw [hlen, List.drop_zero, List.take_left' rfl]

/-- `wasm-zig-example` -/
def exampleWidget : Widget ⟨Unit, Unit, Unit, Export⟩ where
  calls f := [pageCall (exampleText f) (by cases f <;> decide)]
  returns _ := some 1

theorem exampleWidget_prints : ∃ out, prints ⟨id, fun _ _ => rfl⟩
    (oneByteProgram.main exampleWidget.guest ⟨[], []⟩).guest.memory = .ok out
      ∧ out = ascii "WASM: Cross-library payload" ++ [10] := by
  have hbound : ∀ f, ∀ c ∈ exampleWidget.calls f, c.Bounded ∧ c.Countable := by
    intro f c hc
    obtain rfl := List.mem_singleton.mp hc
    rw [PrintCall.Bounded, PrintCall.Countable, passed_pageCall]
    cases f <;> exact ⟨.inl (by decide), by decide⟩
  have hstatus : (oneByteProgram.main exampleWidget.guest ⟨[], []⟩).exit = .ok 0 := rfl
  rcases worker_prints ⟨id, fun _ _ => rfl⟩ oneByteProgram exampleWidget hbound hstatus
    with ⟨hnone, -⟩ | ⟨_, p, -, hp, hout⟩
  · exact absurd ⟨⟨_, rfl, rfl⟩, ⟨0, rfl⟩, by decide, rfl⟩ (hnone "a.wasm")
  · obtain hinit : Export.init = p.func .init := Option.some.inj (hp.made.lookup .init)
    refine ⟨_, hout, ?_⟩
    rw [← hinit]
    show (([pageCall (exampleText .init) _].map PrintCall.passed).flatMap printLine) = _
    rw [List.map_singleton, passed_pageCall]
    decide

end Vespa
