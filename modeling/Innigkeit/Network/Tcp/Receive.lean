import Innigkeit.Library.Ring
import Innigkeit.Library.Transition
import Innigkeit.Network.Tcp.Socket

/-!
The receive path of one connection: inbound segments go through
`handleEstablished`, the application pops. The run records the bytes that
`rxPush` stored and the bytes that were popped. The full test of `rxPush` counts
to 2^16 - 1 while the buffer has 8192 bytes, and no sequence number is looked
at, so the stream is kept only by segments that arrive in order and fit.
-/

namespace Innigkeit.Network.Tcp

open Transition List Option Function System Ring

namespace Socket

/-- The bytes between head and tail, in the order in which they will be popped. -/
def unread (s : Socket) : List Byte := window s.rxBuf s.rxHead.toNat s.rxAvail.toNat

def stored (s : Socket) (data : List Byte) : Nat := ((s.rxPush data).rxTail - s.rxTail).toNat

variable {s : Socket} {data : List Byte}

@[simp]
theorem unread_send (env : Env) (s : Socket) (flags : Flags) (payload : List Byte) :
    (send env s flags payload).unread = s.unread := by
  simp [unread, rxAvail]

/-- A window that begins at a 16-bit counter goes on over the counter's wrap. -/
theorem rxIndex_add (head : BitVec 16) (n : Nat) :
    rxIndex (head + BitVec.ofNat 16 n) = index RX_BUF_SIZE (head.toNat + n) := by
  refine Fin.ext ?_
  show (head + BitVec.ofNat 16 n).toNat % RX_BUF_SIZE = (head.toNat + n) % RX_BUF_SIZE
  simp only [RX_BUF_SIZE, BitVec.toNat_add, BitVec.toNat_ofNat]
  omega

theorem tail_eq (s : Socket) : s.rxTail = s.rxHead + BitVec.ofNat 16 s.rxAvail.toNat := by
  rw [BitVec.ofNat_toNat, BitVec.setWidth_eq, rxAvail]
  bv_omega

theorem push_byte (hfits : s.rxAvail.toNat < RX_BUF_SIZE) (b : Byte) :
    s.rxTail + 1 ≠ s.rxHead ∧
      let s' := { s with
        rxBuf := update s.rxBuf (rxIndex s.rxTail) b
        rxTail := s.rxTail + 1 }
      s'.rxAvail.toNat = s.rxAvail.toNat + 1 ∧ s'.unread = s.unread ++ [b] := by
  have havail : s.rxAvail.toNat < 8192 := hfits
  have hnext : (s.rxTail + 1 - s.rxHead).toNat = s.rxAvail.toNat + 1 := by
    simp only [rxAvail] at havail ⊢
    bv_omega
  refine ⟨?_, hnext, ?_⟩
  · intro heq
    rw [heq, BitVec.sub_self] at hnext
    exact absurd hnext (by simp)
  · show window _ _ (s.rxTail + 1 - s.rxHead).toNat = _
    rw [hnext, tail_eq s, rxIndex_add]
    exact window_update hfits b

theorem push_fits (hfits : s.rxAvail.toNat + data.length ≤ RX_BUF_SIZE) :
    (s.rxPush data).unread = s.unread ++ data ∧
      (s.rxPush data).rxAvail.toNat = s.rxAvail.toNat + data.length ∧
      (s.rxPush data).rxTail = s.rxTail + BitVec.ofNat 16 data.length := by
  induction data generalizing s with
  | nil => simp [rxPush]
  | cons b data ih =>
    rw [length_cons] at hfits
    obtain ⟨hroom, havail, hunread⟩ := push_byte (s := s) (by omega) b
    rw [rxPush, if_neg hroom]
    obtain ⟨hu, ha, ht⟩ := ih (by rw [havail]; omega)
    refine ⟨?_, ?_, ?_⟩
    · rw [hu, hunread, append_assoc, singleton_append]
    · rw [ha, havail, length_cons]
      omega
    · rw [ht, length_cons, BitVec.add_assoc, add_comm data.length]
      congr 1
      exact (BitVec.ofNat_add ..).symm

theorem stored_of_fits (hfits : s.rxAvail.toNat + data.length ≤ RX_BUF_SIZE) :
    s.stored data = data.length := by
  have hsize : data.length < 2 ^ 16 := by
    simp only [RX_BUF_SIZE] at hfits
    omega
  rw [stored, (push_fits hfits).2.2, BitVec.add_comm, BitVec.add_sub_cancel, BitVec.toNat_ofNat,
    Nat.mod_eq_of_lt hsize]

/-- With the whole buffer unread the next byte takes the place of the oldest one. -/
theorem push_overwrites (hfull : s.rxAvail.toNat = RX_BUF_SIZE) (b : Byte) :
    (s.rxPush [b]).unread.head? = some b := by
  have havail : (s.rxTail - s.rxHead).toNat = 8192 := hfull
  have hnext : (s.rxTail + 1 - s.rxHead).toNat = 8192 + 1 := by bv_omega
  have hroom : s.rxTail + 1 ≠ s.rxHead := by
    intro heq
    rw [heq, BitVec.sub_self] at hnext
    exact absurd hnext (by simp)
  have hsame : rxIndex s.rxTail = index RX_BUF_SIZE s.rxHead.toNat := by
    rw [tail_eq s, hfull, rxIndex_add]
    exact Fin.ext (Nat.add_mod_right ..)
  rw [rxPush, if_neg hroom, rxPush]
  show (window _ _ (s.rxTail + 1 - s.rxHead).toNat).head? = _
  rw [hnext, window_succ, head?_cons, hsame]
  exact congrArg some (update_self ..)

theorem pop_unread (s : Socket) (len : Nat) :
    (s.rxPop len).1 ++ (s.rxPop len).2.unread = s.unread := by
  induction len generalizing s with
  | zero => rfl
  | succ len ih =>
    rw [rxPop]
    split
    · rfl
    · next hne =>
      have hpos : s.rxAvail.toNat = (s.rxTail - (s.rxHead + 1)).toNat + 1 := by
        simp only [rxAvail]
        bv_omega
      have hhead : (s.rxHead + 1).toNat % RX_BUF_SIZE = (s.rxHead.toNat + 1) % RX_BUF_SIZE := by
        simp only [RX_BUF_SIZE, BitVec.toNat_add]
        simp
      rw [cons_append, ih, unread, unread, hpos, window_succ]
      exact congrArg _ (window_congr hhead _)

end Socket

/-- A connection from the moment it is established, with its first expected sequence number. -/
structure Stream where
  socket : Socket
  irs : BitVec 32
  received : List Byte
  popped : List Byte

namespace Stream

inductive Action where
  | segment (env : Env) (incoming : Segment)
  | pop (len : Nat)

/-- Whether `handleEstablished` looks at the payload of a segment. -/
def takes (incoming : Segment) : Bool := !incoming.flags.rst && incoming.flags.ack

def accepted (s : Stream) (incoming : Segment) : List Byte :=
  if takes incoming then incoming.payload.take (s.socket.stored incoming.payload) else []

def next (s : Stream) : Action → Option Stream
  | .segment env incoming =>
    if s.socket.state = .established then
      some { s with
        socket := s.socket.handleEstablished env incoming
        received := s.received ++ s.accepted incoming }
    else none
  | .pop len =>
    some { s with
      socket := (s.socket.rxPop len).2
      popped := s.popped ++ (s.socket.rxPop len).1 }

structure Initial (s : Stream) : Prop where
  established : s.socket.state = .established
  empty : s.socket.rxHead = s.socket.rxTail
  open_ : s.socket.recvFin = false
  irs : s.socket.rcvNxt = s.irs
  received : s.received = []
  popped : s.popped = []

def system : System Stream Action := .ofNext Initial next

/-- The payload fits into the part of the buffer that holds no unread byte. -/
def Fits (s : Stream) : Action → Prop
  | .segment _ incoming =>
    takes incoming → s.socket.rxAvail.toNat + incoming.payload.length ≤ RX_BUF_SIZE
  | .pop _ => True

def Carries (irs : BitVec 32) (peer : List Byte) (incoming : Segment) (k : Nat) : Prop :=
  incoming.seq = irs + BitVec.ofNat 32 k ∧ incoming.payload <+: peer.drop k

/-- Every segment that carries bytes carries the next ones of the stream. -/
def InOrder (peer : List Byte) (s : Stream) : Action → Prop
  | .segment env incoming =>
    Fits s (.segment env incoming) ∧ (takes incoming →
      0 < incoming.payload.length ∨ incoming.flags.fin →
        Carries s.irs peer incoming s.received.length)
  | .pop _ => True

/-- A connection to a peer that sends parts of `peer`, in any order and any number of times. -/
def Slices (peer : List Byte) (s : Stream) : Action → Prop
  | .segment _ incoming => ∃ k, Carries s.irs peer incoming k
  | .pop _ => True

instance decidableFits (s : Stream) : (a : Action) → Decidable (Fits s a)
  | .segment _ _ => inferInstanceAs (Decidable (_ → _))
  | .pop _ => inferInstanceAs (Decidable True)

instance decidableCarries (irs : BitVec 32) (peer : List Byte) (incoming : Segment) (k : Nat) :
    Decidable (Carries irs peer incoming k) :=
  inferInstanceAs (Decidable (_ ∧ _))

instance decidableInOrder (peer : List Byte) (s : Stream) :
    (a : Action) → Decidable (InOrder peer s a)
  | .segment _ _ => inferInstanceAs (Decidable (_ ∧ (_ → _ → _)))
  | .pop _ => inferInstanceAs (Decidable True)

variable {s s' : Stream} {env : Env} {incoming : Segment} {peer : List Byte} {a : Action}

open Socket

theorem accepted_of_fits (hfits : Fits s (.segment env incoming)) :
    s.accepted incoming = if takes incoming then incoming.payload else [] := by
  rw [accepted]
  split
  · next ht => rw [stored_of_fits (hfits ht), take_length]
  · rfl

theorem handleEstablished_receives (s : Stream) (env : Env) (incoming : Segment)
    (hfits : Fits s (.segment env incoming)) :
    let socket := s.socket.handleEstablished env incoming
    socket.unread = s.socket.unread ++ s.accepted incoming ∧
      socket.recvFin = (s.socket.recvFin || (takes incoming && incoming.flags.fin)) ∧
      socket.rcvNxt = s.socket.rcvNxt + BitVec.ofNat 32 (s.accepted incoming).length +
        if takes incoming && incoming.flags.fin then 1 else 0 := by
  rw [accepted_of_fits hfits]
  simp only [handleEstablished]
  by_cases hrst : incoming.flags.rst = true
  · simp [hrst, takes, unread, rxAvail]
  · by_cases hack : incoming.flags.ack = true
    · have ht : takes incoming = true := by simp [takes, hrst, hack]
      obtain ⟨hpush, -, -⟩ :=
        @Socket.push_fits { s.socket with sndUna := incoming.ack } incoming.payload (hfits ht)
      by_cases hlen : 0 < incoming.payload.length
      · cases hfin : incoming.flags.fin <;> simp [hrst, hack, ht, hlen] <;> exact hpush
      · have hnil : incoming.payload = [] := length_eq_zero_iff.mp (by omega)
        cases hfin : incoming.flags.fin <;> simp [hrst, hack, ht, hnil] <;> rfl
    · simp [hrst, hack, takes, unread, rxAvail]

theorem next_segment (h : s.next (.segment env incoming) = some s') :
    s.socket.state = .established ∧ s' = { s with
      socket := s.socket.handleEstablished env incoming
      received := s.received ++ s.accepted incoming } := by
  rw [next] at h
  split at h
  · next hstate => exact ⟨hstate, (Option.some.inj h).symm⟩
  · cases h

theorem next_irs (h : s.next a = some s') : s'.irs = s.irs := by
  cases a with
  | segment env incoming =>
    obtain ⟨-, rfl⟩ := next_segment h
    rfl
  | pop len =>
    cases h
    rfl

/-- The bytes popped, followed by the unread ones, are the bytes received. -/
def Kept (s : Stream) : Prop := s.popped ++ s.socket.unread = s.received

theorem Kept.next (h : s.Kept) (hfits : Fits s a) (hnext : s.next a = some s') :
    s'.Kept := by
  cases a with
  | segment env incoming =>
    obtain ⟨-, rfl⟩ := next_segment hnext
    rw [Kept, (handleEstablished_receives s env incoming hfits).1, ← append_assoc]
    exact congrArg (· ++ _) h
  | pop len =>
    cases hnext
    rw [Kept, append_assoc, pop_unread]
    exact h

theorem Initial.kept (h : s.Initial) : s.Kept := by
  rw [Kept, h.popped, h.received, unread, rxAvail, h.empty]
  simp

theorem Kept.of_reachable (h : system.Reachable Fits s) : s.Kept :=
  h.invariant (fun _ => Initial.kept) fun _ _ _ hk hfits hnext => hk.next hfits hnext

/-- While every payload fits, what is popped and what is unread are the received bytes in order,
and the next expected sequence number moves by the bytes stored, and by one for a FIN. -/
theorem stream_kept (h : system.Reachable Fits s) :
    s.popped ++ s.socket.unread = s.received ∧
      ∀ env incoming s', s.next (.segment env incoming) = some s' →
        Fits s (.segment env incoming) →
          s'.received = s.received ++ s.accepted incoming ∧
          s'.socket.rcvNxt = s.socket.rcvNxt + BitVec.ofNat 32 (s.accepted incoming).length +
            if takes incoming && incoming.flags.fin then 1 else 0 := by
  refine ⟨Kept.of_reachable h, fun env incoming s' hnext hfits => ?_⟩
  obtain ⟨-, rfl⟩ := next_segment hnext
  exact ⟨rfl, (handleEstablished_receives s env incoming hfits).2.2⟩

/-- A connection that was just established, for the runs below. -/
def fresh : Stream where
  socket := { state := .established, inUse := true }
  irs := 0
  received := []
  popped := []

theorem fresh_initial : fresh.Initial := ⟨rfl, rfl, rfl, rfl, rfl, rfl⟩

def carrying (k : Nat) (payload : List Byte) : Action :=
  .segment { mac := none, ip := none, arpLookup := fun _ => none, uptimeMs := 0 }
    { srcPort := 0, dstPort := 0, seq := BitVec.ofNat 32 k, ack := 0, flags := { ack := true },
      payload := payload }

theorem stream_kept_pop :
    ∃ s, system.Reachable Fits s ∧ s.popped = [1] ∧ s.received = [1, 2] ∧
      s.popped ++ s.socket.unread = s.received := by
  have hrun : (runNext (restrict Fits next) fresh
      [carrying 0 [1, 2], .pop 1]).map (fun s => (s.popped, s.received)) =
        some ([1], [1, 2]) := by decide
  obtain ⟨s, hs, hlists⟩ := map_eq_some_iff.mp hrun
  obtain ⟨hpopped, hreceived⟩ := Prod.mk.inj hlists
  have hreach := restrict_reachable _ (.init fresh_initial) hs
  exact ⟨s, hreach, hpopped, hreceived, (stream_kept hreach).1⟩

/-- No segment carries more than the maximal segment size. -/
def WithinMss (_ : Stream) : Action → Prop
  | .segment _ incoming => incoming.payload.length ≤ MSS
  | .pop _ => True

theorem carrying_next {payload : List Byte} (hstate : s.socket.state = .established)
    (hpos : 0 < payload.length) (k : Nat) :
    ∃ s', s.next (carrying k payload) = some s' ∧ s'.popped = s.popped ∧
      s'.received = s.received ++ payload.take (s.socket.stored payload) ∧
      s'.socket.state = .established ∧
      s'.socket.unread = (rxPush { s.socket with sndUna := 0 } payload).unread ∧
      s'.socket.rxAvail = (rxPush { s.socket with sndUna := 0 } payload).rxAvail := by
  refine ⟨_, if_pos hstate, rfl, rfl, ?_, ?_, ?_⟩ <;>
    simp [handleEstablished, hpos, hstate, rxAvail]
  rfl

/-- Up to eight segments of 1024 bytes each fill the buffer. -/
theorem filled {n : Nat} (hn : n ≤ 8) : ∃ s, system.Reachable WithinMss s ∧ s.popped = [] ∧
    s.received = replicate (1024 * n) 0 ∧ s.socket.state = .established ∧
    s.socket.rxAvail.toNat = 1024 * n := by
  induction n with
  | zero => exact ⟨fresh, .init fresh_initial, rfl, rfl, rfl, rfl⟩
  | succ n ih =>
    obtain ⟨s, hreach, hpopped, hreceived, hstate, havail⟩ := ih (by omega)
    have hlen : (replicate 1024 (0 : Byte)).length = 1024 := length_replicate
    obtain ⟨s', hnext, hpopped', hreceived', hstate', -, havail'⟩ :=
      carrying_next hstate (Nat.lt_of_lt_of_eq (by decide : 0 < 1024) hlen.symm) (1024 * n)
    have hfits : s.socket.rxAvail.toNat + (replicate 1024 (0 : Byte)).length ≤ RX_BUF_SIZE := by
      rw [havail, hlen, RX_BUF_SIZE]
      omega
    have hmss : WithinMss s (carrying (1024 * n) (replicate 1024 0)) := by
      show (replicate 1024 (0 : Byte)).length ≤ MSS
      rw [hlen]
      decide
    refine ⟨s', .step hreach hmss hnext, hpopped'.trans hpopped, ?_, hstate', ?_⟩
    · rw [hreceived', hreceived, stored_of_fits hfits, take_length, replicate_append_replicate]
      congr 1
    · rw [havail', (push_fits (s := { s.socket with sndUna := 0 }) hfits).2.1, hlen]
      show s.socket.rxAvail.toNat + 1024 = _
      omega

/-- The full test lets 8193 bytes in: the last one overwrites the first. -/
theorem stream_overwritten :
    ∃ s, system.Reachable WithinMss s ∧ s.popped ++ s.socket.unread ≠ s.received := by
  obtain ⟨s, hreach, hpopped, hreceived, hstate, havail⟩ := filled (le_refl 8)
  obtain ⟨s', hnext, hpopped', hreceived', -, hunread, -⟩ :=
    carrying_next hstate (show 0 < [(1 : Byte)].length by decide) 8192
  have hhead := push_overwrites (s := { s.socket with sndUna := 0 }) havail 1
  have hmss : WithinMss s (carrying 8192 [1]) := by
    show 1 ≤ MSS
    decide
  refine ⟨s', .step hreach hmss hnext, fun heq => ?_⟩
  have hheads := congrArg List.head? heq
  rw [hpopped', hpopped, nil_append, hunread, hhead, hreceived', hreceived, head?_append,
    head?_replicate, if_neg (by decide), some_or] at hheads
  exact absurd hheads (by decide)

/-- The bytes stored are the peer's first bytes, and the next one is expected. -/
structure Delivered (peer : List Byte) (s : Stream) : Prop where
  kept : s.Kept
  isPrefix : s.received <+: peer
  rcvNxt : s.socket.rcvNxt =
    s.irs + BitVec.ofNat 32 s.received.length + if s.socket.recvFin then 1 else 0
  open_ : s.socket.state = .established → s.socket.recvFin = false

theorem InOrder.fits (h : InOrder peer s a) : Fits s a := by
  cases a with
  | segment env incoming => exact h.1
  | pop len => trivial

theorem InOrder.accepted (h : InOrder peer s (.segment env incoming)) (hs : s.received <+: peer) :
    s.received ++ s.accepted incoming <+: peer := by
  rw [accepted_of_fits h.1]
  split
  · next ht =>
    rcases Nat.eq_zero_or_pos incoming.payload.length with hlen | hlen
    · rw [length_eq_zero_iff.mp hlen, append_nil]
      exact hs
    · obtain ⟨-, hpayload⟩ := h.2 ht (.inl hlen)
      obtain ⟨rest, rfl⟩ := hs
      rw [drop_left] at hpayload
      exact (prefix_append_right_inj _).mpr hpayload
  · rwa [append_nil]

theorem handleEstablished_open (s : Socket) (env : Env) (incoming : Segment)
    (hopen : s.state = .established → s.recvFin = false) (hstate : s.state = .established) :
    (s.handleEstablished env incoming).state = .established →
      (s.handleEstablished env incoming).recvFin = false := by
  have hfin := hopen hstate
  unfold handleEstablished
  grind [send_state, send_recvFin, rxPush_recvFin]

theorem Delivered.next (h : s.Delivered peer) (horder : InOrder peer s a)
    (hnext : s.next a = some s') : s'.Delivered peer := by
  have hkept := h.kept.next horder.fits hnext
  cases a with
  | segment env incoming =>
    obtain ⟨hstate, rfl⟩ := next_segment hnext
    obtain ⟨-, hfin, hrcv⟩ := handleEstablished_receives s env incoming horder.1
    refine ⟨hkept, horder.accepted h.isPrefix, ?_, handleEstablished_open _ _ _ h.open_ hstate⟩
    dsimp only
    rw [hrcv, hfin, h.rcvNxt, h.open_ hstate, length_append, BitVec.ofNat_add]
    simp [BitVec.add_assoc]
  | pop len =>
    cases hnext
    have hpop := rxPop_rest s.socket len
    refine ⟨hkept, h.isPrefix, ?_, ?_⟩
    · dsimp only
      rw [hpop]
      exact h.rcvNxt
    · dsimp only
      rw [hpop]
      exact h.open_

/-- While every segment with content carries the bytes that come next and they fit, the
application gets a prefix of the peer's stream and `rcvNxt` is the first byte not yet stored. -/
theorem stream_in_order (peer : List Byte) (h : system.Reachable (InOrder peer) s) :
    s.popped ++ s.socket.unread <+: peer ∧
      s.socket.rcvNxt = s.irs + BitVec.ofNat 32 (s.popped ++ s.socket.unread).length +
        if s.socket.recvFin then 1 else 0 := by
  have hd : s.Delivered peer := h.invariant
    (fun s h0 => ⟨h0.kept, by simp [h0.received], by simp [h0.irs, h0.received, h0.open_],
      fun _ => h0.open_⟩)
    fun _ _ _ hd horder hnext => hd.next horder hnext
  rw [show s.popped ++ s.socket.unread = s.received from hd.kept]
  exact ⟨hd.isPrefix, hd.rcvNxt⟩

theorem stream_in_order_two :
    ∃ s, system.Reachable (InOrder [1, 2, 3]) s ∧ s.received = [1, 2, 3] ∧
      s.popped ++ s.socket.unread <+: [1, 2, 3] := by
  have hrun : (runNext (restrict (InOrder [1, 2, 3]) next) fresh
      [carrying 0 [1, 2], .pop 1, carrying 2 [3]]).map (fun s => s.received) =
        some [1, 2, 3] := by decide
  obtain ⟨s, hs, hreceived⟩ := map_eq_some_iff.mp hrun
  have hreach := restrict_reachable _ (.init fresh_initial) hs
  exact ⟨s, hreach, hreceived, (stream_in_order _ hreach).1⟩

/-- A segment that arrives twice is stored twice. -/
theorem stream_duplicated :
    ∃ s, system.Reachable (Slices [1, 2]) s ∧ ¬s.popped ++ s.socket.unread <+: [1, 2] := by
  have hrun : (runNext next fresh [carrying 0 [1, 2], carrying 0 [1, 2]]).map
      (fun s => s.popped ++ s.socket.unread) = some [1, 2, 1, 2] := by decide
  obtain ⟨s, hs, hbytes⟩ := map_eq_some_iff.mp hrun
  simp only [runNext, bind_eq_some_iff] at hs
  obtain ⟨t, ht, s', hs', heq⟩ := hs
  cases heq
  have hfirst : Slices [1, 2] fresh (carrying 0 [1, 2]) := ⟨0, by decide⟩
  have hsecond : Slices [1, 2] t (carrying 0 [1, 2]) := ⟨0, by rw [next_irs ht]; decide⟩
  refine ⟨s, .step (.step (.init fresh_initial) hfirst ht) hsecond hs', ?_⟩
  rw [hbytes]
  decide

end Stream

end Innigkeit.Network.Tcp
