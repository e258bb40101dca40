import ApproxSet.Proofs.Bits.Reading

/-!
# Streams and their histories

A stream is a queue: a list of bits that only grows, and a cursor that says which of them is read
next. Appending and reading may be mixed in any way and the cursor moved in between; what is
answered and what is left is the same as for a plain list with a position, as long as the stream
does not become too long for its store to be doubled.

A request may be refused because too few bits are left. It may also be no proper request at all,
because it names a field that is wider than a word or a position beyond the end; that is checked
before anything else. In both cases the stream stays as it is. Nothing else goes wrong, so none of
the checks of the store ever fails.
-/

namespace ApproxSet.Bits

open Outcome

/-! ### Requests -/

/-- What a stream can be asked to do. -/
inductive Request where
  | append (value : UInt64) (width : Nat)
  | appendBit (bit : Bool)
  | read (width : Nat)
  | readBit
  | seek (position : Nat)
deriving DecidableEq

/-- What is answered to a request that is met. -/
inductive Answer where
  | done
  | word (value : UInt64)
  | bit (bit : Bool)
deriving DecidableEq

namespace Request

/-- Changes the stream and has nothing else to answer. -/
def change (change : Stream → Outcome Stream) : Reading Answer := do
  set (← change (← get))
  return .done

/-- Puts the request to a stream. -/
def ask : Request → Reading Answer
  | .append value width => change (·.append value width)
  | .appendBit bit => change (·.appendBit bit)
  | .read width => return .word (← Reading.bits width)
  | .readBit => return .bit (← Reading.bit)
  | .seek position => change (·.seek position)

/-- No more than a word is appended or read at once, and the cursor is kept within the stream. -/
def Proper (length : Nat) : Request → Prop
  | .append _ width => width ≤ 64
  | .appendBit _ => True
  | .read width => width ≤ 64
  | .readBit => True
  | .seek position => position ≤ length

/-- The bits that the request puts at the end of a stream. -/
def written : Request → List Bool
  | .append value width => if width ≤ 64 then lowBits width value else []
  | .appendBit bit => [bit]
  | .read _ => []
  | .readBit => []
  | .seek _ => []

end Request

/-- The stream that is left after requests in a row, some of which may fail. -/
def Stream.afterAll (s : Stream) (requests : List Request) : Stream :=
  requests.foldl (fun s r => (r.ask.runOn s).2) s

/-! ### Queues -/

/-- A list of bits and the position of the next one to be read. -/
structure Queue where
  bits : List Bool
  cursor : Nat
deriving DecidableEq

namespace Queue

/-- The bits from the cursor on. -/
def rest (q : Queue) : List Bool :=
  q.bits.drop q.cursor

/-- Answers something about the next `width` bits and moves behind them, if there are as many. -/
def take (q : Queue) (width : Nat) (answer : List Bool → Answer) : Outcome Answer × Queue :=
  if width ≤ q.rest.length then
    (.ok (answer (q.rest.take width)), { q with cursor := q.cursor + width })
  else (refuse (.truncated q.cursor), q)

/-- Puts a request to a queue. -/
def ask (q : Queue) : Request → Outcome Answer × Queue
  | .append value width =>
    if width ≤ 64 then (.ok .done, { q with bits := q.bits ++ lowBits width value })
    else (violate .unmet, q)
  | .appendBit bit => (.ok .done, { q with bits := q.bits ++ [bit] })
  | .read width =>
    if width ≤ 64 then q.take width fun bits => .word (wordOf bits) else (violate .unmet, q)
  | .readBit => q.take 1 fun bits => .bit (bits.headD false)
  | .seek position =>
    if position ≤ q.bits.length then (.ok .done, { q with cursor := position })
    else (violate .unmet, q)

/-- The queue that is left after requests in a row. -/
def afterAll (q : Queue) (requests : List Request) : Queue :=
  requests.foldl (fun q r => (q.ask r).2) q

theorem bits_take (q : Queue) (width : Nat) (answer : List Bool → Answer) :
    (q.take width answer).2.bits = q.bits := by
  unfold take
  split <;> rfl

/-- What is written is all that is new. -/
theorem bits_ask (q : Queue) (r : Request) : (q.ask r).2.bits = q.bits ++ r.written := by
  cases r with
  | append value width =>
    rw [ask, Request.written]
    split
    · rfl
    · exact (List.append_nil _).symm
  | appendBit bit => rfl
  | read width =>
    rw [ask, Request.written, List.append_nil]
    split
    · exact bits_take q width _
    · rfl
  | readBit => rw [ask, bits_take, Request.written, List.append_nil]
  | seek position =>
    rw [ask, Request.written, List.append_nil]
    split <;> rfl

theorem bits_afterAll (q : Queue) (requests : List Request) :
    (q.afterAll requests).bits = q.bits ++ requests.flatMap Request.written := by
  induction requests generalizing q with
  | nil => exact (List.append_nil _).symm
  | cons r requests ih =>
    show (afterAll (q.ask r).2 requests).bits = _
    rw [ih, bits_ask, List.flatMap_cons, List.append_assoc]

/-- A proper request breaks no rule. -/
theorem ask_ne_violate {q : Queue} {r : Request} (h : r.Proper q.bits.length) (b : Breach) :
    (q.ask r).1 ≠ violate b := by
  have htake : ∀ width answer, (q.take width answer).1 ≠ violate b := by
    intro width answer
    unfold take
    split <;> simp [violate, refuse]
  cases r with
  | append value width => simp [ask, if_pos (show width ≤ 64 from h), violate]
  | appendBit bit => simp [ask, violate]
  | read width =>
    rw [ask, if_pos (show width ≤ 64 from h)]
    exact htake _ _
  | readBit => exact htake _ _
  | seek position => simp [ask, if_pos (show position ≤ q.bits.length from h), violate]

end Queue

/-! ### Streams as queues -/

namespace Stream

variable {s t : Stream} {width : Nat}

/-- The bits of a stream and its cursor. -/
def queue (s : Stream) : Queue :=
  ⟨s.bits, s.cursor⟩

theorem Sound.moveTo (hs : s.Sound) {position : Nat} (h : position ≤ s.length) :
    Sound { s with cursor := position } :=
  ⟨⟨hs.tidy, hs.room, hs.clear, h, hs.small⟩, hs.slack⟩

theorem runOn_change (change : Stream → Outcome Stream) (s : Stream) :
    (Request.change change).runOn s =
      match change s with
      | .ok t => (.ok .done, t)
      | .error failure => (.error failure, s) := by
  rw [Request.change, Reading.runOn_bind, Reading.runOn_get]
  dsimp only
  rw [Reading.runOn_bind, Reading.runOn_lift]
  cases change s <;> rfl

theorem le_length_rest_iff (hs : s.Formed) :
    width ≤ s.rest.length ↔ s.cursor + width ≤ s.length := by
  have hcursor := hs.cursor
  rw [length_rest]
  omega

theorem runOn_bits_of_le (hs : s.Formed) (hwidth : width ≤ 64) (h : width ≤ s.rest.length) :
    (Reading.bits width).runOn s = (.ok (wordOf (s.rest.take width)), s.advance width) := by
  have hfit := (le_length_rest_iff hs).1 h
  rw [Reading.runOn_bits, next_eq_ok hs hwidth hfit, take_rest hs hwidth hfit,
    wordOf_lowBits (Store.fits_field hwidth)]

theorem runOn_bits_of_lt (hs : s.Formed) (hlength : s.length ≤ mostBits) (hwidth : width ≤ 64)
    (h : s.rest.length < width) :
    (Reading.bits width).runOn s = (refuse (.truncated s.cursor), s) := by
  have hmost : mostBits = 2 ^ 62 := rfl
  have hcursor := hs.cursor
  rw [length_rest] at h
  rw [Reading.runOn_bits, next_eq_truncated hs hwidth (by omega) (by omega)]
  rfl

/-- The stream does with the request what the queue does. -/
def Follows (s : Stream) (r : Request) : Prop :=
  ∃ t, r.ask.runOn s = ((s.queue.ask r).1, t) ∧ t.Sound ∧ t.queue = (s.queue.ask r).2

/-- A writer does to the queue what it does to the stream. -/
theorem change_of_writes {writer : Stream → Outcome Stream} {bits : List Bool}
    (h : Writes writer bits) (hs : s.Sound) (hroom : s.length + bits.length ≤ mostBits) :
    ∃ t, (Request.change writer).runOn s = (.ok .done, t) ∧ t.Sound ∧
      t.queue = ⟨s.bits ++ bits, s.cursor⟩ := by
  obtain ⟨t, ht, htsound⟩ := h.succeeds s hs hroom
  have hextends := h.appends s t hs.toFormed ht
  refine ⟨t, ?_, htsound, ?_⟩
  · rw [runOn_change, ht]
  · rw [queue, hextends.bits, hextends.cursor]

theorem follows_append (hs : s.Sound) (value : UInt64) (width : Nat)
    (hroom : s.length + (Request.append value width).written.length ≤ mostBits) :
    s.Follows (.append value width) := by
  by_cases hwidth : width ≤ 64
  · rw [Request.written, if_pos hwidth] at hroom
    rw [Follows, Queue.ask, if_pos hwidth]
    exact change_of_writes (writes_append hwidth value) hs hroom
  · have happend : s.append value width = violate .unmet := by
      rw [append, require, if_neg hwidth]
      rfl
    refine ⟨s, ?_, hs, ?_⟩
    · rw [Request.ask, runOn_change, happend, Queue.ask, if_neg hwidth]
      rfl
    · rw [Queue.ask, if_neg hwidth]

/-- What is made of the next bits is the same, whether they are taken as a word or as a list. -/
theorem runOn_take (hs : s.Sound) (hlength : s.length ≤ mostBits) (hwidth : width ≤ 64)
    {ofWord : UInt64 → Answer} {ofBits : List Bool → Answer}
    (h : ∀ bits, bits.length = width → ofWord (wordOf bits) = ofBits bits) :
    ∃ t, (return ofWord (← Reading.bits width) : Reading Answer).runOn s =
        ((s.queue.take width ofBits).1, t) ∧
      t.Sound ∧ t.queue = (s.queue.take width ofBits).2 := by
  rw [Queue.take, Reading.runOn_bind]
  by_cases hle : width ≤ s.rest.length
  · have hfit := (le_length_rest_iff hs.toFormed).1 hle
    have hanswer := h (s.rest.take width) (by rw [List.length_take, Nat.min_eq_left hle])
    rw [runOn_bits_of_le hs.toFormed hwidth hle, if_pos (show width ≤ s.queue.rest.length from hle)]
    exact ⟨_, congrArg (fun answer => (Except.ok answer, _)) hanswer, hs.moveTo hfit, rfl⟩
  · rw [runOn_bits_of_lt hs.toFormed hlength hwidth (Nat.lt_of_not_le hle),
      if_neg (show ¬width ≤ s.queue.rest.length from hle)]
    exact ⟨s, rfl, hs, rfl⟩

theorem follows_read (hs : s.Sound) (hlength : s.length ≤ mostBits) (width : Nat) :
    s.Follows (.read width) := by
  by_cases hwidth : width ≤ 64
  · rw [Follows, Queue.ask, if_pos hwidth]
    exact runOn_take hs hlength hwidth fun bits _ => rfl
  · have hnext : s.next width = violate .unmet := by
      rw [next, require, if_neg hwidth]
      rfl
    refine ⟨s, ?_, hs, ?_⟩
    · rw [Request.ask, Reading.runOn_bind, Reading.runOn_bits, hnext, Queue.ask, if_neg hwidth]
      rfl
    · rw [Queue.ask, if_neg hwidth]

theorem follows_readBit (hs : s.Sound) (hlength : s.length ≤ mostBits) : s.Follows .readBit := by
  have hbit : ∀ bits : List Bool, bits.length = 1 →
      Answer.bit (wordOf bits == 1) = .bit (bits.headD false) := by
    intro bits hone
    obtain ⟨bit, rfl⟩ := List.length_eq_one_iff.1 hone
    cases bit <;> rfl
  rw [Follows, Request.ask, Reading.bit, bind_assoc]
  exact runOn_take hs hlength (by omega) hbit

theorem follows_seek (hs : s.Sound) (position : Nat) : s.Follows (.seek position) := by
  rw [Follows, Request.ask, runOn_change, Queue.ask, seek]
  by_cases h : position ≤ s.length
  · rw [require_bind _ h, if_pos (show position ≤ s.queue.bits.length by simpa [queue] using h)]
    exact ⟨_, rfl, hs.moveTo h, rfl⟩
  · rw [require, if_neg h, if_neg (show ¬position ≤ s.queue.bits.length by simpa [queue] using h)]
    exact ⟨s, rfl, hs, rfl⟩

/-- Every request leaves the stream that the queue asks for. -/
theorem follows (hs : s.Sound) (r : Request) (hroom : s.length + r.written.length ≤ mostBits) :
    s.Follows r := by
  have hlength : s.length ≤ mostBits := by omega
  cases r with
  | append value width => exact follows_append hs value width hroom
  | appendBit bit => exact change_of_writes (writes_appendBit bit) hs hroom
  | read width => exact follows_read hs hlength width
  | readBit => exact follows_readBit hs hlength
  | seek position => exact follows_seek hs position

theorem afterAll_queue (requests : List Request) (hs : s.Sound)
    (hroom : s.length + (requests.flatMap Request.written).length ≤ mostBits) :
    (s.afterAll requests).Sound ∧ (s.afterAll requests).queue = s.queue.afterAll requests := by
  induction requests generalizing s with
  | nil => exact ⟨hs, rfl⟩
  | cons r requests ih =>
    rw [List.flatMap_cons, List.length_append] at hroom
    obtain ⟨t, hrun, htsound, hqueue⟩ := follows hs r (by omega)
    have hbits : t.bits = s.bits ++ r.written :=
      (congrArg Queue.bits hqueue).trans (Queue.bits_ask s.queue r)
    have hlength : t.length = s.length + r.written.length := by
      rw [← t.length_bits, hbits, List.length_append, length_bits]
    rw [afterAll, List.foldl_cons, hrun, Queue.afterAll, List.foldl_cons, ← hqueue]
    exact ih htsound (show t.length + _ ≤ mostBits by omega)

/-- The stream is the queue: it has its bits and its cursor, its octets have the same bits with less
than an octet of zeros behind them, and the next request, whichever it is, gets the answer of the
queue and leaves what it leaves of the queue. A proper request breaks no rule. What is read are the
next bits, and a read that lacks some leaves the very same stream. -/
structure IsQueue (s : Stream) (q : Queue) : Prop where
  bits : s.bits = q.bits
  length : s.length = q.bits.length
  cursor : s.cursor = q.cursor
  within : q.cursor ≤ q.bits.length
  ask : ∀ r : Request, q.bits.length + r.written.length ≤ mostBits → ∃ t,
    r.ask.runOn s = ((q.ask r).1, t) ∧ t.bits = (q.ask r).2.bits ∧ t.cursor = (q.ask r).2.cursor
  safe : ∀ r : Request, q.bits.length + r.written.length ≤ mostBits → r.Proper q.bits.length →
    ∀ b, (r.ask.runOn s).1 ≠ violate b
  append : ∀ value, ∀ width ≤ 64, q.bits.length + width ≤ mostBits → ∃ t,
    s.append value width = .ok t ∧ t.bits = q.bits ++ lowBits width value ∧ t.cursor = q.cursor
  read : ∀ width ≤ 64, q.cursor + width ≤ q.bits.length → ∃ value,
    (Reading.bits width).runOn s = (.ok value, s.advance width) ∧ value.toNat < 2 ^ width ∧
      lowBits width value = slice q.bits q.cursor width
  short : ∀ width ≤ 64, q.bits.length < q.cursor + width →
    (Reading.bits width).runOn s = (refuse (.truncated q.cursor), s)
  toBytes : ∃ padding < 8, octetBits s.toBytes = q.bits ++ List.replicate padding false
  reload : ∃ t, ofBytes s.toBytes = .ok t ∧ t.cursor = 0 ∧
    ∃ padding < 8, t.bits = q.bits ++ List.replicate padding false

/-- A stream in order is its bits with its cursor. -/
theorem isQueue (hs : s.Sound) (hlength : s.length ≤ mostBits) : s.IsQueue s.queue where
  bits := rfl
  length := s.length_bits.symm
  cursor := rfl
  within := s.length_bits ▸ hs.cursor
  ask r hroom := by
    obtain ⟨t, hrun, -, hqueue⟩ := follows hs r (s.length_bits ▸ hroom)
    exact ⟨t, hrun, congrArg Queue.bits hqueue, congrArg Queue.cursor hqueue⟩
  safe r hroom hproper b := by
    obtain ⟨t, hrun, -⟩ := follows hs r (s.length_bits ▸ hroom)
    rw [hrun]
    exact Queue.ask_ne_violate hproper b
  append value width hwidth hroom := by
    obtain ⟨t, ht, -⟩ := append_eq_ok hwidth value hs (s.length_bits ▸ hroom)
    have hextends := append_spec hs.toFormed ht
    exact ⟨t, ht, hextends.bits, hextends.cursor⟩
  read width hwidth hfit := by
    have hfit : s.cursor + width ≤ s.length := s.length_bits ▸ hfit
    have hfits : Fits width (s.store.field s.cursor width) := Store.fits_field hwidth
    refine ⟨s.store.field s.cursor width, ?_, fits_iff_lt.1 hfits, ?_⟩
    · rw [Reading.runOn_bits, next_eq_ok hs.toFormed hwidth hfit]
    · exact (take_rest hs.toFormed hwidth hfit).symm
  short width hwidth hshort := by
    have hcursor := hs.cursor
    have hshort : s.length < s.cursor + width := s.length_bits ▸ hshort
    exact runOn_bits_of_lt hs.toFormed hlength hwidth (by rw [length_rest]; omega)
  toBytes := octetBits_toBytes hs.toFormed
  reload := ofBytes_toBytes hs.toFormed

end Stream

/-- For all octets that a stream starts from, and all requests that are put to it: the stream that
is left is the queue that the same requests leave of the bits of the octets, in all that can be seen
of it and in what each further request does. Its bits are those of the octets and then all that was
written, and the stream that nothing was done to is written as the octets that it was read from.
From no octets one gets the empty stream. -/
theorem streams_are_queues_of_bits (bytes : List UInt8) (requests : List Request)
    (hroom : 8 * bytes.length + (requests.flatMap Request.written).length ≤ Stream.mostBits) :
    ∃ start, Stream.ofBytes bytes = .ok start ∧ start.toBytes = bytes ∧
      (bytes = [] → start = Stream.empty) ∧
      (start.afterAll requests).IsQueue ((Queue.mk (octetBits bytes) 0).afterAll requests) ∧
      ((Queue.mk (octetBits bytes) 0).afterAll requests).bits =
        octetBits bytes ++ requests.flatMap Request.written := by
  have hmost : Stream.mostBits = 2 ^ 62 := rfl
  have hsmall : 8 * bytes.length + 64 ≤ 2 ^ 64 := by omega
  obtain ⟨start, hstart⟩ := Stream.ofBytes_eq_ok_iff.2 hsmall
  obtain ⟨-, hlength, hcursor, -⟩ := Stream.ofBytes_spec hstart
  have hqueue : start.queue = ⟨octetBits bytes, 0⟩ := by
    rw [Stream.queue, Stream.bits_of_ofBytes hstart, hcursor]
  have hbits := Queue.bits_afterAll ⟨octetBits bytes, 0⟩ requests
  obtain ⟨hsound, hafter⟩ :=
    Stream.afterAll_queue requests (Stream.sound_of_ofBytes hstart) (by omega)
  rw [hqueue] at hafter
  have hall : (start.afterAll requests).length ≤ Stream.mostBits := by
    have hsame : (start.afterAll requests).bits = _ := (congrArg Queue.bits hafter).trans hbits
    rw [← Stream.length_bits, hsame, List.length_append, length_octetBits]
    exact hroom
  refine ⟨start, hstart, Stream.toBytes_of_ofBytes hstart, ?_, hafter ▸ Stream.isQueue hsound hall,
    hbits⟩
  rintro rfl
  exact (Except.ok.inj hstart).symm

/-- Reads and writes in turns. The read of nine bits meets a border between octets; the read of
forty bits lacks some and is refused; then the cursor goes back and a written bit is read. -/
def turns : List Request :=
  [.append 0x1ff 9, .read 9, .read 40, .append 0xa 4, .seek 16, .readBit, .appendBit true]

/-- From one octet the requests leave three, the last of which has two bits that were not written.
The next five bits are read as they were written, and a read of six is refused. -/
theorem turns_leave_three_octets :
    ∃ start, Stream.ofBytes [0xa5] = .ok start ∧
      (start.afterAll turns).length = 22 ∧ (start.afterAll turns).cursor = 17 ∧
      (start.afterAll turns).toBytes = [0xa5, 0xff, 0x35] ∧
      (Reading.bits 5).runOn (start.afterAll turns) =
        (.ok 0x1a, (start.afterAll turns).advance 5) ∧
      (Reading.bits 6).runOn (start.afterAll turns) =
        (refuse (.truncated 17), start.afterAll turns) := by
  obtain ⟨start, hstart, -, -, h, -⟩ := streams_are_queues_of_bits [0xa5] turns (by decide +kernel)
  have hqueue : (Queue.mk (octetBits [0xa5]) 0).afterAll turns =
      ⟨(octetBits [0xa5, 0xff, 0x35]).take 22, 17⟩ := by decide +kernel
  rw [hqueue] at h
  obtain ⟨padding, hpadding, hoctets⟩ := h.toBytes
  obtain ⟨value, hread, hlt, hvalue⟩ := h.read 5 (by decide) (by decide +kernel)
  have hword : value = 0x1a :=
    (lowBits_inj (fits_iff_lt.2 hlt) (fits_iff_lt.2 (by decide))).1
      (hvalue.trans (by decide +kernel))
  refine ⟨start, hstart, h.length.trans (by decide +kernel), h.cursor, ?_, hword ▸ hread,
    h.short 6 (by decide) (by decide +kernel)⟩
  have hlength := congrArg List.length hoctets
  rw [length_octetBits, List.length_append, List.length_replicate, List.length_take,
    length_octetBits] at hlength
  have htwo : padding = 2 := by
    simp only [List.length_cons, List.length_nil] at hlength
    omega
  rw [htwo] at hoctets
  exact octetBits_inj.1 (hoctets.trans (by decide +kernel))

end ApproxSet.Bits
