import Hellas.Invocation.Batch
import Mathlib.Data.Set.Function

-- An accepted transcript binds everything in it but the signature bytes.

namespace Hellas.Invocation

open Cbor Guard Kernel Words

section Binding

def unsigned (event : OutputEventEnvelope) : OutputEventBody × List UInt8 × PublicKey :=
  (event.event.body, event.payload, event.event.publicKey)

def OutputEventBody.Spelled (body : OutputEventBody) : Prop := Item.text.fits body.kind

theorem digest_cancel {one other : Digest} (same : Item.bytes.put one.bytes ++ left = Item.bytes.put other.bytes ++ right) :
    one = other ∧ left = right := by
  have small (digest : Digest) : Item.bytes.fits digest.bytes := by
    show digest.bytes.length < 2^64
    rw [digest.length_eq]
    decide
  obtain ⟨bytes,rest⟩ := Item.put_cancel (small one) (small other) same
  exact ⟨FixedBytes.ext bytes,rest⟩

theorem header_cancel {one other : UInt8} (same : header 0 one.toNat ++ left = header 0 other.toNat ++ right) :
    one = other ∧ left = right := by
  have small (byte : UInt8) : byte.toNat < 2^64 := Nat.lt_trans byte.toNat_lt (by decide)
  have read := @readHeader_header 0 one.toNat left (by decide) (small one)
  rw [same,readHeader_header (by decide) (small other),Option.some.injEq,Prod.mk.injEq] at read
  exact ⟨(UInt8.toNat_inj.mp read.1).symm,read.2.symm⟩

theorem canonicalBytes_inj {one other : OutputEventBody} (first : one.Spelled)
    (second : other.Spelled) (same : one.canonicalBytes = other.canonicalBytes) : one = other := by
  simp only [OutputEventBody.canonicalBytes,List.append_assoc] at same
  have same := List.append_cancel_left (List.append_cancel_left same)
  obtain ⟨scheme,same⟩ := header_cancel same
  obtain ⟨input,same⟩ := digest_cancel same
  obtain ⟨streamId,same⟩ := digest_cancel same
  obtain ⟨sequence,same⟩ := Item.put_cancel trivial trivial same
  obtain ⟨previous,same⟩ := digest_cancel same
  obtain ⟨kind,same⟩ := Item.put_cancel first second same
  obtain ⟨payload,same⟩ := digest_cancel same
  obtain ⟨signer,same⟩ := digest_cancel same
  rw [← List.append_nil (Item.bytes.put one.canonicalization.bytes),
    ← List.append_nil (Item.bytes.put other.canonicalization.bytes)] at same
  obtain ⟨canonicalization,-⟩ := digest_cancel same
  cases one
  cases other
  simp_all

variable [Xet]

variable {events : List OutputEventEnvelope}

theorem verifyEvents_congr {left right : List OutputEventEnvelope} (same : left.map unsigned = right.map unsigned) :
    verifyEvents gathered left = verifyEvents gathered right := by
  induction left generalizing gathered right with
  | nil => rw [List.map_eq_nil_iff.mp same.symm]
  | cons one left ih =>
    cases right with
    | nil => cases same
    | cons other right =>
      obtain ⟨here,later⟩ := List.cons.inj same
      have ends : left = [] ↔ right = [] := by
        rw [← List.map_eq_nil_iff (f := unsigned),later,List.map_eq_nil_iff]
      obtain ⟨⟨body,_,_⟩,payload⟩ := one
      obtain ⟨⟨_,_,_⟩,_⟩ := other
      cases here
      simp only [verifyEvents,ih later,Gathered.fail,Gathered.close,ne_eq,ends]
      rfl

theorem gather_kinds (gathers : events.foldlM Gathered.gather gathered = .ok after) :
    ∀ event ∈ events, event.event.body.kind = artifactChunkKind := by
  induction events generalizing gathered with
  | nil =>
    intro event listed
    cases listed
  | cons first rest ih =>
    obtain ⟨next,here,gathers⟩ := bind_ok.mp gathers
    obtain ⟨delivered,chunk,pushed,-⟩ := gather_ok.mp here
    rw [List.forall_mem_cons]
    exact ⟨(push_event pushed).1,ih gathers⟩

theorem verifyEvents_spelled (verified : verifyEvents .empty events = .ok output) :
    ∀ event ∈ events, event.event.body.Spelled := by
  obtain ⟨body,last,after,rfl,gathers,concludes⟩ := (verifyEvents_exact rfl).mp verified
  intro event listed
  rw [List.mem_append,List.mem_singleton] at listed
  unfold OutputEventBody.Spelled
  rcases listed with inside | rfl
  · rw [gather_kinds gathers event inside]
    show (Item.utf8 artifactChunkKind).length < 2^64
    decide +kernel
  · rcases (conclude_kind concludes).1 with terminal | failed
    · rw [terminal]
      show (Item.utf8 terminalKind).length < 2^64
      decide +kernel
    · rw [failed]
      show (Item.utf8 failureKind).length < 2^64
      decide +kernel

variable [Signing] {key : PublicKey} {hashed : Set (List UInt8)}

structure Links (key : PublicKey) (sequence : UInt64) (previous : Digest)
    (event : OutputEventEnvelope) : Prop where
  payload : event.event.body.payload = Xet.hash event.payload
  key : event.event.publicKey = key
  sequence : event.event.body.sequence = sequence
  previous : event.event.body.previousEvent = previous

theorem continuation_links {sequence : UInt64}
    (linked : verifyOutputEventContinuation scheme input key sequence previous event = .ok result) :
    Links key sequence previous event := by
  simp only [verifyOutputEventContinuation,OutputEventEnvelope.verify,SignedOutputEvent.verify,bind_ok,rejectIf_ok,not_not] at linked
  obtain ⟨_,⟨_,payload,_,signer,-⟩,_,-,_,-,_,-,_,sequence,_,previous,-⟩ := linked
  exact ⟨payload,signer,sequence,previous⟩

-- What a hash without collisions pins down in two lists of events.
structure Hashed (hashed : Set (List UInt8)) (events : List OutputEventEnvelope) : Prop where
  bodies : ∀ event ∈ events, event.event.body.canonicalBytes ∈ hashed
  payloads : ∀ event ∈ events, event.payload ∈ hashed
  spelled : ∀ event ∈ events, event.event.body.Spelled

omit [Xet] [Signing] in
theorem Hashed.initially (known : Hashed hashed (events ++ later)) : Hashed hashed events :=
  ⟨fun event listed => known.bodies event (List.mem_append_left _ listed),
    fun event listed => known.payloads event (List.mem_append_left _ listed),
    fun event listed => known.spelled event (List.mem_append_left _ listed)⟩

omit [Signing] in
theorem last_bound (apart : Set.InjOn Xet.hash hashed) (known : Hashed hashed (left ++ [one]))
    (known' : Hashed hashed (right ++ [other])) (linked : Links key first before one)
    (linked' : Links key second earlier other) (same : one.eventCommitment = other.eventCommitment) :
    unsigned one = unsigned other ∧ first = second ∧ before = earlier := by
  have here : one ∈ left ++ [one] := List.mem_concat_self
  have there : other ∈ right ++ [other] := List.mem_concat_self
  have bodies := canonicalBytes_inj (known.spelled one here) (known'.spelled other there)
    (apart (known.bodies one here) (known'.bodies other there) same)
  have payloads : one.payload = other.payload := by
    apply apart (known.payloads one here) (known'.payloads other there)
    rw [← linked.payload,← linked'.payload,bodies]
  refine ⟨?_,?_,?_⟩
  · rw [unsigned,unsigned,bodies,payloads,linked.key,linked'.key]
  · rw [← linked.sequence,← linked'.sequence,bodies]
  · rw [← linked.previous,← linked'.previous,bodies]

theorem chain_bound (apart : Set.InjOn Xet.hash hashed) (known : Hashed hashed left) (known' : Hashed hashed right)
    (sized : left.length = right.length) (chained : verifyChain scheme input key 0 start left = .ok result)
    (chained' : verifyChain scheme input key 0 start right = .ok result) :
    left.map unsigned = right.map unsigned := by
  induction left using List.reverseRecOn generalizing right result with
  | nil => rw [List.length_eq_zero_iff.mp sized.symm]
  | append_singleton left one ih =>
    obtain ⟨right,other,rfl⟩ : ∃ before last, right = before ++ [last] := by
      cases right using List.reverseRecOn with
      | nil => simp at sized
      | append_singleton before last => exact ⟨before,last,rfl⟩
    obtain ⟨before,chained,-,linked⟩ := verifyChain_snoc.mp chained
    obtain ⟨earlier,chained',-,linked'⟩ := verifyChain_snoc.mp chained'
    have same := (continuation_ok linked).symm.trans (continuation_ok linked')
    obtain ⟨last,-,rfl⟩ := last_bound apart known known' (continuation_links linked) (continuation_links linked') same
    rw [List.length_append,List.length_append] at sized
    rw [List.map_append,List.map_append,List.map_singleton,List.map_singleton,last,
      ih known.initially known'.initially (Nat.add_right_cancel sized) chained chained']

theorem accepted_bound (apart : Set.InjOn Xet.hash hashed)
    (listed : ∀ event ∈ left ++ right, event.event.body.canonicalBytes ∈ hashed ∧ event.payload ∈ hashed)
    (accepts : Accepts request provider left budget one) (accepts' : Accepts request provider right allowance other)
    (same : left.getLast?.map OutputEventEnvelope.eventCommitment = right.getLast?.map OutputEventEnvelope.eventCommitment) :
    left.map unsigned = right.map unsigned ∧ one = other := by
  obtain ⟨before,first,_,rfl,-⟩ := (verifyEvents_exact rfl).mp accepts.verified
  obtain ⟨earlier,second,_,rfl,-⟩ := (verifyEvents_exact rfl).mp accepts'.verified
  rw [List.getLast?_concat,List.getLast?_concat,Option.map_some,Option.map_some,Option.some.injEq] at same
  have known : Hashed hashed (before ++ [first]) :=
    ⟨fun event member => (listed event (List.mem_append_left _ member)).1,
      fun event member => (listed event (List.mem_append_left _ member)).2,
      verifyEvents_spelled accepts.verified⟩
  have known' : Hashed hashed (earlier ++ [second]) :=
    ⟨fun event member => (listed event (List.mem_append_right _ member)).1,
      fun event member => (listed event (List.mem_append_right _ member)).2,
      verifyEvents_spelled accepts'.verified⟩
  obtain ⟨last,chained⟩ := accepts.chained
  obtain ⟨final,chained'⟩ := accepts'.chained
  obtain ⟨_,-,room,linked⟩ := verifyChain_snoc.mp chained
  obtain ⟨_,-,room',linked'⟩ := verifyChain_snoc.mp chained'
  have ends : last = final := by
    rw [continuation_ok linked,continuation_ok linked',same]
  obtain ⟨-,counted,-⟩ := last_bound apart known known' (continuation_links linked) (continuation_links linked') same
  have sized : (before ++ [first]).length = (earlier ++ [second]).length := by
    have numbers := congrArg UInt64.toNat counted
    rw [UInt64.toNat_ofNat_of_lt' room,UInt64.toNat_ofNat_of_lt' room'] at numbers
    rw [List.length_append,List.length_append,List.length_singleton,List.length_singleton]
    omega
  have bound := chain_bound apart known known' sized chained (ends ▸ chained')
  refine ⟨bound,?_⟩
  have outputs := accepts.verified
  rw [verifyEvents_congr bound,accepts'.verified] at outputs
  exact (Except.ok.inj outputs).symm

end Binding

end Hellas.Invocation
