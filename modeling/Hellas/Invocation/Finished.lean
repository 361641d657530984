import Hellas.Invocation.Signed

-- Which results a stream can be finished with, and what becomes of the others.

namespace Hellas.Invocation

open Cbor Guard Kernel Words

-- What a completion signs next of an artifact published up to an offset.
@[reducible] def nextPiece (artifact : Artifact) (chunkSize : Nat) (offset : Option Nat) : Attempt :=
  OutputStream.slice artifact (offset.getD 0) (min artifact.bytes.length (offset.getD 0 + chunkSize))

def tailPieces (artifact : Artifact) (chunkSize : Nat) : Nat → Option Nat → List Attempt
  | 0, _ => []
  | fuel + 1, offset =>
    if offset.all (fun start => decide (start < artifact.bytes.length)) = true then
      nextPiece artifact chunkSize offset :: tailPieces artifact chunkSize fuel
        (some (min artifact.bytes.length (offset.getD 0 + chunkSize)))
    else []

def tailOf (artifacts : Artifacts) (chunkSize : Nat) (artifact : Artifact) : List Attempt :=
  tailPieces artifact chunkSize (artifact.bytes.length + 1) ((artifacts.lookup artifact.name).map fun prior => prior.bytes.length)

def payloads (attempts : List Attempt) : Nat := (attempts.map fun attempt => attempt.payload.length).sum

theorem payloads_append : payloads (first ++ rest) = payloads first + payloads rest := by
  rw [payloads,List.map_append,List.sum_append]
  rfl

theorem payloads_cons : payloads (attempt :: attempts) = attempt.payload.length + payloads attempts := by
  rw [payloads,payloads,List.map_cons,List.sum_cons]

theorem payload_positive {attempt : Attempt} : 0 < attempt.payload.length := by
  have header : 0 < (header 4 2).length := by decide
  rw [Attempt.payload,chunk_put,List.length_append]
  omega

-- The published bytes start the output's bytes, and everything still to sign fits the budget.
structure Finishes [Xet] [Signing] (stream : OutputStream) (output : InvocationOutput)
    (chunkSize : Nat) : Prop where
  succeeded : output.outcome = .succeeded
  valid : validateArtifacts output.artifacts = .ok ()
  positive : 1 ≤ chunkSize
  bounded : chunkSize ≤ maxChunkBytes
  published : ∀ name prior, stream.artifacts.lookup name = some prior →
    ∃ artifact ∈ output.artifacts, artifact.name = name ∧ artifact.format = prior.format ∧
      prior.bytes <+: artifact.bytes
  fits : ∀ terminal, output.terminal = .ok terminal → stream.payloadBytes +
    payloads (output.artifacts.flatMap (tailOf stream.artifacts chunkSize)) +
      (Wire.terminal.put (terminalKind, terminal)).length ≤ stream.maximumPayloadBytes.toNat

-- An artifact published with no bytes can only be completed with none.
def NoneResumed [Signing] (stream : OutputStream) (artifacts : List Artifact) : Prop :=
  ∀ artifact ∈ artifacts, ∀ prior, stream.artifacts.lookup artifact.name = some prior → prior.bytes = [] → artifact.bytes = []

-- Signing is left to the key; a key that refuses a digest refuses every result.
def Signs [Signing] (key : SigningKey) : Prop := ∀ digest, ∃ signature, Signing.signDigest key digest = .ok signature

section Finished

variable [Xet] [LawfulSigning] {request : InvocationRequest} {key : SigningKey} {budget : UInt64}
  {events : List OutputEventEnvelope} {last : Digest} {attempt : Attempt} {room chunkSize : Nat}
  {stream : OutputStream} {output : InvocationOutput}

theorem pushEnvelope_signs (signs : Signs key) (more : events.length + 1 < 2^64) :
    ∃ result, (builderAt request key events last).pushEnvelope kind payload = .ok result := by
  obtain ⟨signature,signed⟩ := signs ((builderAt request key events last).body kind payload).signaturePreimage
  have counted : checkedAdd (builderAt request key events last).nextSequence 1 = some (UInt64.ofNat (events.length + 1)) := by
    rw [checkedAdd_exact]
    change (UInt64.ofNat events.length).toNat + 1 = _
    rw [UInt64.toNat_ofNat_of_lt' (show _ < 2^64 by omega),UInt64.toNat_ofNat_of_lt' more]
  simp only [OutputTranscriptBuilder.pushEnvelope,SignedOutputEvent.sign,OutputEventEnvelope.new,
    bind_ok,okOr_ok,rejectIf_ok,not_not,mapError_ok,pure_ok,counted]
  exact ⟨_,_,rfl,_,⟨(),rfl,signature,signed,rfl⟩,_,⟨(),rfl,rfl⟩,rfl⟩

theorem Published.counted (published : Published request key budget events last chunks gathered) :
    events.length ≤ payloadBytes events := by
  have gathers : ∀ (events : List OutputEventEnvelope) (start after : Gathered),
      events.foldlM Gathered.gather start = .ok after → events.length ≤ payloadBytes events := by
    intro events
    induction events with
    | nil => exact fun _ _ _ => Nat.le_refl _
    | cons event events ih =>
      intro start after ran
      rw [List.foldlM_cons,bind_ok] at ran
      obtain ⟨middle,first,rest⟩ := ran
      obtain ⟨delivered,chunk,pushed,-⟩ := gather_ok.mp first
      have later := ih _ _ rest
      have held : event.payload ≠ [] := by
        intro empty
        simp only [ArtifactPrefix.push,empty,bind_ok] at pushed
        obtain ⟨_,-,_,-,_,decoded,-⟩ := pushed
        cases decoded
      have positive := List.length_pos_of_ne_nil held
      rw [payloadBytes,List.map_cons,List.sum_cons,List.length_cons]
      change _ ≤ _ + payloadBytes events
      omega
  exact gathers _ _ _ published.gathers

theorem Published.pushInner_exact (published : Published request key budget events last chunks gathered)
    (signs : Signs key) (name : label attempt.name = .ok ()) (format : label attempt.format = .ok ())
    (small : attempt.bytes.length ≤ maxChunkBytes) :
    (∃ result, (streamAt request key budget events last gathered).pushInner attempt room = .ok result) ↔
      (streamAt request key budget events last gathered).continues attempt = .ok () ∧
        payloadBytes events + (attempt.payload.length + room) ≤ budget.toNat := by
  constructor
  · rintro ⟨⟨next,envelope⟩,pushed⟩
    obtain ⟨taken,-⟩ := pushInner_taken published.room pushed
    exact ⟨taken.contiguous,taken.reserved⟩
  · rintro ⟨contiguous,fits⟩
    have bound := budget.toNat_lt
    have counted := published.counted
    have positive := @payload_positive attempt
    obtain ⟨signed,pushed⟩ := @pushEnvelope_signs _ _ request key events last artifactChunkKind attempt.payload signs (by omega)
    simp only [OutputStream.pushInner,bind_ok,rejectIf_ok,Nat.not_lt,okOr_ok,mapError_ok,pure_ok,usizeAdd_some]
    exact ⟨_,(),name,(),format,(),small,(),contiguous,_,⟨rfl,by omega⟩,(),reserve_ok.mpr fits,
      signed,pushed,rfl⟩

theorem Published.slice_continues (published : Published request key budget events last chunks gathered)
    (reached : Reached gathered.artifacts artifact offset) (positive : 0 < chunkSize)
    (missing : offset.all (fun start => decide (start < artifact.bytes.length)) = true)
    (space : offset = none → gathered.artifacts.size < maxArtifacts) :
    (streamAt request key budget events last gathered).continues
      (nextPiece artifact chunkSize offset) = .ok () ↔ (offset = some 0 → artifact.bytes = []) := by
  have held : (streamAt request key budget events last gathered).artifacts = gathered.artifacts := rfl
  rw [OutputStream.continues,held]
  cases offset with
  | none =>
    rw [show gathered.artifacts.lookup (OutputStream.slice artifact _ _).name = none from reached]
    simpa [OutputStream.slice] using space rfl
  | some start =>
    obtain ⟨within,found⟩ := reached
    simp only [Option.all_some,decide_eq_true_eq] at missing
    have short := published.short _ _ found
    have affordable := published.affordable
    have bound := budget.toNat_lt
    rw [List.length_take,Nat.min_eq_left within] at short
    rw [show gathered.artifacts.lookup (OutputStream.slice artifact _ _).name = some _ from found]
    have size : (artifact.bytes.take start).length = start := by
      rw [List.length_take,Nat.min_eq_left within]
    have zero : UInt64.ofNat start = 0 ↔ start = 0 := by
      rw [← UInt64.toNat_inj,UInt64.toNat_ofNat_of_lt' (show start < 2^64 by omega)]
      rfl
    have nonempty : ((artifact.bytes.take (min artifact.bytes.length (start + chunkSize))).drop start) ≠ [] := by
      refine List.ne_nil_of_length_pos ?_
      rw [List.length_drop,List.length_take]
      omega
    have filled : artifact.bytes ≠ [] := List.ne_nil_of_length_pos (by omega)
    simp only [rejectIf_ok,OutputStream.slice,Option.getD_some,size,zero,nonempty,filled,ne_eq,
      not_true_eq_false,false_or,or_false,Option.some.injEq,imp_false]

theorem Continued.affordable (continued : Continued request key budget events stream) :
    stream.payloadBytes ≤ budget.toNat := by
  obtain ⟨more,last,chunks,gathered,published,rfl⟩ := continued
  exact published.affordable

theorem Continued.paid (continued : Continued request key budget events stream)
    (pushed : stream.pushInner attempt room = .ok (next, envelope)) :
    next.payloadBytes = stream.payloadBytes + attempt.payload.length := by
  obtain ⟨more,last,chunks,gathered,published,rfl⟩ := continued
  obtain ⟨taken,rfl⟩ := pushInner_taken published.room pushed
  rw [← taken.linked.payload_eq]
  exact payloadBytes_snoc

theorem Continued.slice_exact (continued : Continued request key budget events stream) (signs : Signs key)
    (valid : artifact.validate = .ok ()) (reached : Reached stream.artifacts artifact offset) (positive : 0 < chunkSize)
    (small : chunkSize ≤ maxChunkBytes)
    (missing : offset.all (fun start => decide (start < artifact.bytes.length)) = true)
    (space : offset = none → stream.artifacts.size < maxArtifacts) :
    (∃ result, stream.pushInner (nextPiece artifact chunkSize offset) 0 = .ok result) ↔
      (offset = some 0 → artifact.bytes = []) ∧ stream.payloadBytes +
        (nextPiece artifact chunkSize offset).payload.length ≤ budget.toNat := by
  obtain ⟨more,last,chunks,gathered,published,rfl⟩ := continued
  simp only [Artifact.validate,bind_ok] at valid
  obtain ⟨_,name,format⟩ := valid
  have short : (nextPiece artifact chunkSize offset).bytes.length ≤ maxChunkBytes := by
    rw [nextPiece,OutputStream.slice,List.length_drop,List.length_take]
    omega
  rw [published.pushInner_exact signs name format short,published.slice_continues reached positive missing space,Nat.add_zero]
  rfl

theorem pushTail_exact (signs : Signs key) (valid : artifact.validate = .ok ()) (positive : 0 < chunkSize)
    (small : chunkSize ≤ maxChunkBytes) (continued : Continued request key budget events stream)
    (reached : Reached stream.artifacts artifact offset) (enough : remaining artifact offset ≤ fuel)
    (space : offset = none → stream.artifacts.size < maxArtifacts) :
    ((OutputStream.pushTail artifact chunkSize fuel stream offset).2 = .ok () ↔ (offset = some 0 → artifact.bytes = []) ∧
        stream.payloadBytes + payloads (tailPieces artifact chunkSize fuel offset) ≤ budget.toNat) ∧
    ((OutputStream.pushTail artifact chunkSize fuel stream offset).2 = .ok () →
      (OutputStream.pushTail artifact chunkSize fuel stream offset).1.payloadBytes =
        stream.payloadBytes + payloads (tailPieces artifact chunkSize fuel offset)) := by
  have nothing : ∀ offset, remaining artifact offset = 0 → offset = some 0 → artifact.bytes = [] := by
    rintro offset done rfl
    exact List.length_eq_zero_iff.mp done
  induction fuel generalizing stream offset with
  | zero =>
    exact ⟨⟨fun _ => ⟨nothing _ (Nat.le_zero.mp enough),continued.affordable⟩,fun _ => rfl⟩,
      fun _ => rfl⟩
  | succ fuel ih =>
    unfold OutputStream.pushTail tailPieces
    split
    · rename_i missing
      obtain ⟨later,less⟩ := remaining_step positive missing enough
      have taken := continued.slice_exact signs valid reached positive small missing space
      rw [payloads_cons]
      cases pushed : stream.pushInner (nextPiece artifact chunkSize offset) 0 with
      | error failure =>
        rw [pushed] at taken
        refine ⟨⟨fun done => (by cases done),fun both => ?_⟩,fun done => (by cases done)⟩
        obtain ⟨_,impossible⟩ := taken.mpr ⟨both.1,by omega⟩
        cases impossible
      | ok result =>
        obtain ⟨starts,-⟩ := taken.mp ⟨result,pushed⟩
        obtain ⟨after,arrived,-⟩ := continued.reaches reached later (Nat.min_le_left _ _) pushed
        obtain ⟨completes,paid⟩ := ih after arrived less (fun impossible => (by cases impossible))
        rw [continued.paid pushed,Nat.add_assoc] at completes paid
        refine ⟨completes.trans ⟨fun both => ⟨starts,both.2⟩,fun both => ⟨fun last => ?_,both.2⟩⟩,
          paid⟩
        rw [Option.some.injEq] at last
        exact List.length_eq_zero_iff.mp (by omega)
    · rename_i done
      have ended : remaining artifact offset = 0 := by
        cases offset with
        | none => simp at done
        | some start =>
          simp only [Option.all_some,decide_eq_true_eq,Nat.not_lt] at done
          exact Nat.sub_eq_zero_of_le done
      exact ⟨⟨fun _ => ⟨nothing _ ended,continued.affordable⟩,fun _ => rfl⟩,fun _ => rfl⟩

omit [Xet] [LawfulSigning] in
theorem space_left {artifacts : Artifacts} {all : List Artifact} (few : all.length ≤ maxArtifacts)
    (known : ∀ name, artifacts.lookup name ≠ none → name ∈ all.map Artifact.name)
    (listed : artifact ∈ all) (fresh : artifacts.lookup artifact.name = none) :
    artifacts.size < maxArtifacts := by
  have inside : artifacts.keys ⊆ (all.map Artifact.name).toFinset.erase artifact.name := by
    intro name held
    rw [Slots.mem_keys] at held
    refine Finset.mem_erase.mpr ⟨?_,List.mem_toFinset.mpr (known name held)⟩
    rintro rfl
    exact held fresh
  have member : artifact.name ∈ (all.map Artifact.name).toFinset := List.mem_toFinset.mpr (List.mem_map_of_mem listed)
  calc artifacts.size ≤ _ := Finset.card_le_card inside
    _ < _ := Finset.card_erase_lt_of_mem member
    _ ≤ _ := List.toFinset_card_le _
    _ ≤ _ := by rwa [List.length_map]

theorem pushTails_exact {all : List Artifact} (signs : Signs key) (positive : 0 < chunkSize)
    (small : chunkSize ≤ maxChunkBytes) (few : all.length ≤ maxArtifacts)
    (continued : Continued request key budget events stream)
    (known : ∀ name, stream.artifacts.lookup name ≠ none → name ∈ all.map Artifact.name)
    (distinct : (tails.map Artifact.name).Nodup)
    (inside : ∀ artifact ∈ tails, artifact ∈ all ∧ artifact.validate = .ok ())
    (published : ∀ artifact ∈ tails, ∀ prior, stream.artifacts.lookup artifact.name = some prior →
      prior.name = artifact.name ∧ prior.format = artifact.format ∧ prior.bytes <+: artifact.bytes) :
    ((OutputStream.pushTails chunkSize stream tails).2 = .ok () ↔ NoneResumed stream tails ∧
      stream.payloadBytes + payloads (tails.flatMap (tailOf stream.artifacts chunkSize)) ≤ budget.toNat) ∧
    ((OutputStream.pushTails chunkSize stream tails).2 = .ok () → (OutputStream.pushTails chunkSize stream tails).1.payloadBytes =
        stream.payloadBytes + payloads (tails.flatMap (tailOf stream.artifacts chunkSize))) := by
  induction tails generalizing stream with
  | nil =>
    refine ⟨⟨fun _ => ⟨fun _ listed => (by cases listed),continued.affordable⟩,fun _ => rfl⟩,
      fun _ => rfl⟩
  | cons artifact tails ih =>
    rw [List.map_cons,List.nodup_cons] at distinct
    rw [List.forall_mem_cons] at inside published
    have reached := Reached.of_prefix published.1
    have tailed := pushTail_tailed positive continued reached remaining_le
    obtain ⟨completes,paid⟩ := pushTail_exact signs inside.1.2 positive small continued reached
      remaining_le fun fresh => space_left few known inside.1.1 (Option.map_eq_none_iff.mp fresh)
    have starts : ((stream.artifacts.lookup artifact.name).map (fun prior => prior.bytes.length) = some 0 → artifact.bytes = []) ↔
        ∀ prior, stream.artifacts.lookup artifact.name = some prior → prior.bytes = [] → artifact.bytes = [] := by
      simp only [Option.map_eq_some_iff,List.length_eq_zero_iff,forall_exists_index,and_imp]
    rw [starts] at completes
    rw [NoneResumed,List.forall_mem_cons,List.flatMap_cons,payloads_append,tailOf]
    unfold OutputStream.pushTails
    generalize OutputStream.pushTail artifact chunkSize (artifact.bytes.length + 1) stream
      ((stream.artifacts.lookup artifact.name).map fun prior => prior.bytes.length) = run
      at tailed completes paid
    obtain ⟨next,result⟩ := run
    cases result with
    | error failure =>
      refine ⟨⟨fun done => (by cases done),fun both => ?_⟩,fun done => (by cases done)⟩
      cases completes.mpr ⟨both.1.1,by omega⟩
    | ok done =>
      have away : ∀ other ∈ tails, next.artifacts.lookup other.name = stream.artifacts.lookup other.name := fun other listed =>
        tailed.apart fun same => distinct.1 (same ▸ List.mem_map_of_mem listed)
      have pieces : tails.flatMap (tailOf next.artifacts chunkSize) = tails.flatMap (tailOf stream.artifacts chunkSize) :=
        List.flatMap_congr fun other listed => by rw [tailOf,tailOf,away other listed]
      have kept : NoneResumed next tails ↔ NoneResumed stream tails := by
        refine forall_congr' fun other => forall_congr' fun listed => ?_
        rw [away other listed]
      obtain ⟨others,spent⟩ := ih tailed.continued (by
        intro name held
        by_cases same : name = artifact.name
        · exact same ▸ List.mem_map_of_mem inside.1.1
        · exact known name (tailed.apart same ▸ held)) distinct.2 inside.2 (by
        intro other listed prior found
        exact published.2 other listed prior (away other listed ▸ found))
      rw [pieces,paid rfl,Nat.add_assoc] at others spent
      rw [kept] at others
      obtain ⟨starts,-⟩ := completes.mp rfl
      exact ⟨others.trans ⟨fun both => ⟨⟨starts,both.1⟩,both.2⟩,fun both => ⟨both.1.2,both.2⟩⟩,
        spent⟩

omit [LawfulSigning] in
theorem terminal_made : (∃ terminal, output.terminal = .ok terminal) ↔ validateArtifacts output.artifacts = .ok () := by
  simp only [InvocationOutput.terminal,bind_ok,pure_ok]
  constructor
  · rintro ⟨terminal,_,valid,-⟩
    exact valid
  · intro valid
    have labelled := valid
    simp only [validateArtifacts,bind_ok] at labelled
    obtain ⟨_,-,sorted⟩ := labelled
    have each := (validateSorted_ok sorted).1
    have ends : ∃ ends, output.artifacts.mapM Artifact.ends = .ok ends := by
      generalize output.artifacts = artifacts at each
      induction artifacts with
      | nil => exact ⟨[],rfl⟩
      | cons artifact rest ih =>
        rw [List.forall_mem_cons] at each
        obtain ⟨ends,mapped⟩ := ih each.2
        simp only [List.mapM_cons,bind_ok,pure_ok,mapped,Artifact.ends,Artifact.contentId,each.1]
        exact ⟨_,_,⟨_,⟨(),trivial,rfl⟩,rfl⟩,_,rfl,rfl⟩
    obtain ⟨ends,mapped⟩ := ends
    exact ⟨_,(),valid,ends,mapped,rfl⟩

theorem checkCompletion_exact {terminal : Terminal} :
    stream.checkCompletion output chunkSize = .ok terminal ↔ Completes stream output chunkSize terminal ∧ chunkSize ≤ maxChunkBytes := by
  constructor
  · intro checked
    refine ⟨checkCompletion_ok checked,?_⟩
    simp only [OutputStream.checkCompletion,bind_ok,rejectIf_ok,not_or,Nat.not_lt] at checked
    obtain ⟨_,-,_,-,_,⟨-,bounded⟩,-⟩ := checked
    exact bounded
  · rintro ⟨completes,bounded⟩
    simp only [OutputStream.checkCompletion,bind_ok,rejectIf_ok,not_not,not_or,mapError_ok,forM_ok,pure_ok,Nat.not_lt]
    refine ⟨(),completes.succeeded,_,completes.made,(),⟨completes.positive.ne',bounded⟩,(),?_,rfl⟩
    intro entry listed
    obtain ⟨name,-,found⟩ := List.mem_filterMap.mp listed
    obtain ⟨prior,held,rfl⟩ := Option.map_eq_some_iff.mp found
    obtain ⟨artifact,member,named,format,bytes⟩ := completes.published name prior held
    have chosen : output.artifacts.find? (fun artifact => artifact.name = name) =
        some artifact := by
      have listed : (output.artifacts.find? fun artifact => artifact.name = name).isSome :=
        List.find?_isSome.mpr ⟨artifact,member,decide_eq_true named⟩
      obtain ⟨other,first⟩ := Option.isSome_iff_exists.mp listed
      have same := List.find?_some first
      rw [first,List.inj_on_of_nodup_map (terminal_ok completes.made).distinct
        (List.mem_of_find?_eq_some first) member ((of_decide_eq_true same).trans named.symm)]
    simp only [OutputStream.checkPublished,bind_ok,okOr_ok,rejectIf_ok,not_or,not_not,Bool.not_eq_false, List.isPrefixOf_iff_prefix]
    exact ⟨artifact,chosen,format,bytes⟩

theorem Continued.pushTerminal_exact (continued : Continued request key budget events stream) (signs : Signs key) {terminal : Terminal} :
    (stream.pushTerminal terminal).2 = .ok () ↔ stream.payloadBytes +
      (Wire.terminal.put (terminalKind, terminal)).length ≤ budget.toNat := by
  obtain ⟨more,last,chunks,gathered,published,rfl⟩ := continued
  unfold OutputStream.pushTerminal
  split
  · rename_i failure refused
    refine ⟨fun done => (by cases done),fun fits => ?_⟩
    cases (reserve_ok.mpr fits).symm.trans refused
  · rename_i reserved
    have fits := reserve_ok.mp reserved
    have bound := budget.toNat_lt
    have counted := published.counted
    have header : 0 < (header 4 2).length := by decide
    change payloadBytes _ + _ ≤ budget.toNat at fits
    rw [terminal_put,List.length_append] at fits
    obtain ⟨result,signed⟩ := @pushEnvelope_signs _ _ request key (events ++ more) last terminalKind
      (Wire.terminal.put (terminalKind, terminal)) signs (by omega)
    split
    · rename_i failure refused
      cases signed.symm.trans refused
    · exact ⟨fun _ => reserve_ok.mp reserved,fun _ => rfl⟩

theorem Published.appendCompletion_exact (published : Published request key budget events last chunks gathered) (signs : Signs key) :
    ((streamAt request key budget events last gathered).appendCompletion output chunkSize).2 =
      .ok () ↔ Finishes (streamAt request key budget events last gathered) output chunkSize ∧
        NoneResumed (streamAt request key budget events last gathered) output.artifacts := by
  unfold OutputStream.appendCompletion
  split
  · rename_i failure refused
    refine ⟨fun done => (by cases done),fun both => ?_⟩
    obtain ⟨terminal,made⟩ := terminal_made.mpr both.1.valid
    cases refused.symm.trans (checkCompletion_exact.mpr ⟨⟨both.1.succeeded,made,both.1.positive,both.1.published⟩,both.1.bounded⟩)
  · rename_i terminal checked
    obtain ⟨completes,bounded⟩ := checkCompletion_exact.mp checked
    have terminates := terminal_ok completes.made
    have tailed := published.tailed completes
    obtain ⟨tails,spent⟩ := pushTails_exact signs completes.positive bounded terminates.few published.continued (by
        intro name held
        obtain ⟨prior,found⟩ := Option.ne_none_iff_exists'.mp held
        obtain ⟨artifact,listed,named,-⟩ := completes.published name prior found
        exact named ▸ List.mem_map_of_mem listed) terminates.distinct
      (fun artifact listed => ⟨listed,terminates.labelled artifact listed⟩)
      (completes.extends published.named)
    generalize OutputStream.pushTails chunkSize (streamAt request key budget events last gathered)
      output.artifacts = run at tailed tails spent
    obtain ⟨next,result⟩ := run
    cases result with
    | error failure =>
      refine ⟨fun done => (by cases done),fun both => ?_⟩
      have fits := both.1.fits terminal completes.made
      cases tails.mpr ⟨both.2,le_trans (Nat.le_add_right _ _) fits⟩
    | ok done =>
      dsimp only
      rw [tailed.continued.pushTerminal_exact signs,spent rfl]
      refine ⟨fun fits => ⟨⟨completes.succeeded,terminal_made.mp ⟨_,completes.made⟩,
        completes.positive,bounded,completes.published,fun other made => ?_⟩,(tails.mp rfl).1⟩,
        fun both => both.1.fits terminal completes.made⟩
      cases completes.made.symm.trans made
      exact fits

variable {taken : List (Attempt × OutputEventEnvelope)}

theorem Live.finish_exact (live : Live request key budget taken stream) (signs : Signs key) :
    (∃ events, stream.finish output chunkSize = .ok events) ↔ Finishes stream output chunkSize ∧ NoneResumed stream output.artifacts := by
  obtain ⟨last,gathered,made,rfl⟩ := live.held
  rw [← made.appendCompletion_exact signs]
  unfold OutputStream.finish
  split
  · rename_i failure appended
    rw [appended]
    exact ⟨fun ⟨_,finished⟩ => (by cases finished),fun done => (by cases done)⟩
  · rename_i next _ appended
    obtain ⟨-,nonempty,-⟩ := appendCompletion_accepted made appended
    rw [appended]
    refine ⟨fun _ => rfl,fun _ => ⟨next.inner.events,?_⟩⟩
    rw [OutputTranscriptBuilder.finish,List.isEmpty_eq_false_iff.mpr nonempty]
    rfl

theorem Live.fail_signs (live : Live request key budget taken stream) (signs : Signs key)
    (room : failurePayloadBytes ≤ budget.toNat ∨ taken ≠ []) :
    ∃ result, stream.fail reason = .ok result := by
  have fits := live.failure_room room
  obtain ⟨last,gathered,made,rfl⟩ := live.held
  have size := @failure_length reason
  have bound := budget.toNat_lt
  have counted := made.counted
  have positive : 0 < failurePayloadBytes := by decide
  obtain ⟨⟨inner,envelope⟩,signed⟩ := @pushEnvelope_signs _ _ request key (published taken) last failureKind
    (Wire.failure.put (failureKind, reason)) signs (by omega)
  obtain ⟨rfl,-⟩ := pushEnvelope_linked made.room signed
  simp only [OutputStream.fail,bind_ok,mapError_ok,OutputTranscriptBuilder.finish,rejectIf_ok,pure_ok]
  exact ⟨_,(),reserve_ok.mpr (by change payloadBytes _ + _ ≤ budget.toNat; omega),_,signed,_,
    ⟨(),by simp [builderAt],rfl⟩,rfl⟩

-- What stands in for a result that is not finished: a failure with exactly the published artifacts.
def FailsInstead (request : InvocationRequest) (key : SigningKey) (budget : UInt64) (taken : List (Attempt × OutputEventEnvelope))
    (stream : OutputStream) (output : InvocationOutput) (chunkSize : Nat) : Prop :=
  taken ≠ [] ∨ failurePayloadBytes ≤ budget.toNat →
    ∃ reason result events, stream.finishOrFail output chunkSize = .ok (result, events) ∧ result.outcome = .failed reason ∧
      result.artifacts = stream.artifacts.values ∧ FailsAs request key budget taken reason result events

theorem Live.fails_instead (live : Live request key budget taken stream) (signs : Signs key)
    (other : ¬(Finishes stream output chunkSize ∧ NoneResumed stream output.artifacts)) :
    FailsInstead request key budget taken stream output chunkSize := by
  intro room
  rcases @Live.finishOrFail_eq _ _ _ _ _ _ output chunkSize _ live with
    ⟨next,appended,-⟩ | ⟨reason,same⟩
  · obtain ⟨last,gathered,made,held⟩ := live.held
    refine absurd ?_ other
    rw [held] at appended ⊢
    exact (made.appendCompletion_exact signs).mp (by rw [appended])
  · obtain ⟨⟨result,events⟩,failed⟩ := @Live.fail_signs _ _ _ _ _ _ _ reason live signs room.symm
    have fails := live.fails failed
    refine ⟨reason,result,events,same.trans failed,fails.outcome,?_,fails⟩
    simp only [OutputStream.fail,bind_ok,pure_ok,Prod.mk.injEq] at failed
    obtain ⟨_,-,_,-,_,-,rfl,-⟩ := failed
    rfl

-- Finishing takes exactly the results that extend what was published, but for artifacts that were
-- published empty and are not; every other result ends as a failure of what was published. So the
-- results that extend what was published are the ones taken exactly where none of them is resumed.
theorem finish_accepts_extensions (request : InvocationRequest) (key : SigningKey) (budget : UInt64)
    (start : OutputStream) (opened : OutputStream.new request key budget = .ok start) (signs : Signs key)
    (attempts : List Attempt) (output : InvocationOutput) (chunkSize : Nat) :
    let stream := (start.pushAll attempts).1
    let fails := FailsInstead request key budget (start.pushAll attempts).2 stream output chunkSize
    ((∃ events, stream.finish output chunkSize = .ok events) ↔
      Finishes stream output chunkSize ∧ NoneResumed stream output.artifacts) ∧
    (¬(Finishes stream output chunkSize ∧ NoneResumed stream output.artifacts) → fails) ∧
    ((((∃ events, stream.finish output chunkSize = .ok events) ↔ Finishes stream output chunkSize) ∧
        (¬Finishes stream output chunkSize → fails)) ↔
      (Finishes stream output chunkSize → NoneResumed stream output.artifacts)) := by
  intro stream fails
  have live := @Live.pushAll _ _ _ _ _ _ _ (live_new opened) attempts
  rw [List.nil_append] at live
  have exactly : (∃ events, stream.finish output chunkSize = .ok events) ↔ _ := live.finish_exact signs
  refine ⟨exactly,live.fails_instead signs,fun taken finishes => ?_,fun resumes => ⟨?_,fun other => ?_⟩⟩
  · exact (exactly.mp (taken.1.mpr finishes)).2
  · exact exactly.trans ⟨And.left,fun finishes => ⟨finishes,resumes finishes⟩⟩
  · exact live.fails_instead signs fun both => other both.1

end Finished

namespace Sample

attribute [local instance] digest curve

theorem signs_always : Signs (() : SigningKey) := fun _ => ⟨_,rfl⟩

theorem finish_accepts_extensions_tail :
    Finishes (started.pushAll attempts).1 written 2 ∧ NoneResumed (started.pushAll attempts).1 written.artifacts := by
  have finished : ((started.pushAll attempts).1.finish written 2).isOk = true := by decide +kernel
  cases ended : (started.pushAll attempts).1.finish written 2 with
  | error failure => rw [ended] at finished; cases finished
  | ok events =>
    exact (finish_accepts_extensions request () 4096 started rfl signs_always attempts written
      2).1.mp ⟨events,ended⟩

-- An empty first chunk of the artifact is published, and then its bytes are not taken any more.
def emptied : List Attempt := [⟨"text","utf8",0,[]⟩]

theorem empty_start_unfinished :
    Finishes (started.pushAll emptied).1 written 2 ∧
      ¬∃ events, (started.pushAll emptied).1.finish written 2 = .ok events := by
  have unfinished : ((started.pushAll emptied).1.finish written 2).isOk = false := by
    decide +kernel
  have names : (started.pushAll emptied).1.artifacts.keys = {"text"} := by decide +kernel
  have held : (started.pushAll emptied).1.artifacts.lookup "text" = some ⟨"text","utf8",[]⟩ := by
    decide +kernel
  have room : (written.terminal.toOption.all fun terminal =>
      decide ((started.pushAll emptied).1.payloadBytes +
        payloads (written.artifacts.flatMap (tailOf (started.pushAll emptied).1.artifacts 2)) +
        (Wire.terminal.put (terminalKind, terminal)).length ≤
          (started.pushAll emptied).1.maximumPayloadBytes.toNat)) = true := by decide +kernel
  have valid : validateArtifacts written.artifacts = .ok () := by decide +kernel
  generalize (started.pushAll emptied).1 = stream at unfinished names held room ⊢
  refine ⟨⟨rfl,valid,by decide,by decide,?_,?_⟩,?_⟩
  · intro name prior found
    have known : name ∈ stream.artifacts.keys :=
      Slots.mem_keys.mpr (by rw [found]; exact Option.some_ne_none _)
    rw [names,Finset.mem_singleton] at known
    subst known
    rw [held,Option.some.injEq] at found
    subst found
    exact ⟨_,List.mem_singleton_self _,rfl,rfl,List.nil_prefix⟩
  · intro terminal made
    rw [made] at room
    exact of_decide_eq_true room
  · rintro ⟨events,ended⟩
    rw [ended] at unfinished
    cases unfinished

end Sample

end Hellas.Invocation
