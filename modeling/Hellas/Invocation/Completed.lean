import Hellas.Invocation.Produced

-- Completing a stream: the tails still missing, the terminal, and what is left of them when one
-- cannot be signed.

namespace Hellas.Invocation

open Cbor Guard Kernel Words

section Terminal

theorem validateSorted_ok (valid : validateSorted previous artifacts = .ok ()) :
    (∀ artifact ∈ artifacts, artifact.validate = .ok ()) ∧
      (artifacts.map Artifact.name).Pairwise (fun one other => one.toList < other.toList) ∧
      ∀ name, previous = some name → ∀ artifact ∈ artifacts, name.toList < artifact.name.toList := by
  induction artifacts generalizing previous with
  | nil => simp
  | cons artifact rest ih =>
    simp only [validateSorted,bind_ok,rejectIf_ok,Bool.not_eq_true] at valid
    obtain ⟨_,labelled,_,above,valid⟩ := valid
    obtain ⟨each,sorted,later⟩ := ih valid
    have after := later artifact.name rfl
    refine ⟨List.forall_mem_cons.mpr ⟨labelled,each⟩,?_,?_⟩
    · rw [List.map_cons,List.pairwise_cons]
      refine ⟨?_,sorted⟩
      intro name listed
      obtain ⟨other,member,rfl⟩ := List.mem_map.mp listed
      exact after other member
    · intro name same
      subst same
      rw [Option.any_some,decide_eq_false_iff_not,not_le] at above
      rw [List.forall_mem_cons]
      exact ⟨above,fun other listed => lt_trans above (after other listed)⟩

variable {terminal : Terminal} {output : InvocationOutput}

theorem terminal_put : Wire.terminal.put (kind, terminal) = header 4 2 ++ (Item.text.put kind ++ (header 5 2 ++
      ((Item.text.put "metadata" ++ (header 2 terminal.metadata.length ++ terminal.metadata)) ++
        (Item.text.put "artifacts" ++ Wire.artifactEnd.array.put terminal.artifacts)))) := rfl

variable [Xet]

structure Terminates (output : InvocationOutput) (terminal : Terminal) : Prop where
  few : output.artifacts.length ≤ maxArtifacts
  labelled : ∀ artifact ∈ output.artifacts, artifact.validate = .ok ()
  sorted : (output.artifacts.map Artifact.name).Pairwise
    (fun one other => one.toList < other.toList)
  ends : output.artifacts.mapM Artifact.ends = .ok terminal.artifacts
  metadata : terminal.metadata = output.metadata

theorem terminal_ok (made : output.terminal = .ok terminal) : Terminates output terminal := by
  simp only [InvocationOutput.terminal,validateArtifacts,bind_ok,rejectIf_ok,Nat.not_lt,pure_ok] at made
  obtain ⟨_,⟨_,few,valid⟩,ends,mapped,rfl⟩ := made
  obtain ⟨labelled,sorted,-⟩ := validateSorted_ok valid
  exact ⟨few,labelled,sorted,mapped,rfl⟩

theorem Terminates.distinct (terminates : Terminates output terminal) : (output.artifacts.map Artifact.name).Nodup :=
  terminates.sorted.imp fun below same => by
    rw [same] at below
    exact lt_irrefl _ below

theorem Terminates.values (terminates : Terminates output terminal) {artifacts : Artifacts}
    (complete : ∀ artifact ∈ output.artifacts, artifacts.lookup artifact.name = some artifact)
    (only : ∀ name, name ∉ output.artifacts.map Artifact.name → artifacts.lookup name = none) :
    artifacts.values = output.artifacts := by
  refine Slots.values_of_sorted terminates.sorted complete fun name held => ?_
  by_contra absent
  exact held (only name absent)

theorem terminal_decodes (terminates : Terminates output terminal) (small : (Wire.terminal.put (terminalKind, terminal)).length < 2^64) :
    decodeCanonicalDagCbor Wire.terminal (Wire.terminal.put (terminalKind, terminal)) = .ok (terminalKind, terminal) := by
  have metadata : terminal.metadata.length < 2^64 := by
    rw [terminal_put] at small
    simp only [List.length_append] at small
    omega
  have count : terminal.artifacts.length < 2^64 := by
    rw [mapM_ok_length terminates.ends]
    exact Nat.lt_of_le_of_lt terminates.few (by decide)
  have each : ∀ ends ∈ terminal.artifacts, Wire.artifactEnd.fits ends := by
    intro ends listed
    obtain ⟨artifact,-,made⟩ := mapM_ok_mem terminates.ends listed
    simp only [Artifact.ends,Artifact.contentId,Artifact.validate,bind_ok,pure_ok] at made
    obtain ⟨_,⟨_,⟨_,name,format⟩,rfl⟩,rfl⟩ := made
    refine ⟨Nat.lt_of_le_of_lt (label_short name) (by decide),trivial,
      Nat.lt_of_le_of_lt (label_short format) (by decide),?_⟩
    show (Xet.hash _).bytes.length < 2^64
    rw [(Xet.hash _).length_eq]
    decide
  have fits : Wire.terminal.fits (terminalKind, terminal) := by
    refine ⟨?_,metadata,count,each⟩
    show (Item.utf8 terminalKind).length < 2^64
    decide +kernel
  rw [decodeCanonicalDagCbor,okOr_ok]
  exact Item.decodeCanonical_put fits

end Terminal

section Tails

def Reached (artifacts : Artifacts) (artifact : Artifact) : Option Nat → Prop
  | none => artifacts.lookup artifact.name = none
  | some start => start ≤ artifact.bytes.length ∧ artifacts.lookup artifact.name =
      some ⟨artifact.name,artifact.format,artifact.bytes.take start⟩

def remaining (artifact : Artifact) : Option Nat → Nat
  | none => artifact.bytes.length + 1
  | some start => artifact.bytes.length - start

variable {artifact : Artifact} {offset : Option Nat} {tails : List Artifact}

theorem Reached.grown (reached : Reached artifacts artifact offset) (later : offset.getD 0 ≤ stop) :
    artifacts.grown (OutputStream.slice artifact (offset.getD 0) stop) = ⟨artifact.name,artifact.format,artifact.bytes.take stop⟩ := by
  cases offset with
  | none =>
    rw [Artifacts.grown,OutputStream.slice,show artifacts.lookup artifact.name = none from reached]
    rfl
  | some start =>
    rw [Artifacts.grown,OutputStream.slice,reached.2,Option.map_some,Option.getD_some]
    have joined := List.take_append_drop start (artifact.bytes.take stop)
    rw [List.take_take,Nat.min_eq_left (show start ≤ stop from later)] at joined
    exact congrArg (Artifact.mk artifact.name artifact.format) joined

theorem remaining_step (positive : 0 < chunkSize) (missing : offset.all (fun start => decide (start < artifact.bytes.length)) = true)
    (enough : remaining artifact offset ≤ fuel + 1) :
    offset.getD 0 ≤ min artifact.bytes.length (offset.getD 0 + chunkSize) ∧
      remaining artifact (some (min artifact.bytes.length (offset.getD 0 + chunkSize))) ≤ fuel := by
  cases offset with
  | none =>
    simp only [remaining,Option.getD_none] at enough ⊢
    omega
  | some start =>
    simp only [Option.all_some,decide_eq_true_eq] at missing
    simp only [remaining,Option.getD_some] at enough ⊢
    omega

theorem Reached.complete (reached : Reached artifacts artifact offset) (nothing : remaining artifact offset = 0) :
    artifacts.lookup artifact.name = some artifact := by
  cases offset with
  | none => cases nothing
  | some start => rw [reached.2,List.take_of_length_le (Nat.sub_eq_zero_iff_le.mp nothing)]

theorem Reached.of_prefix (published : ∀ prior, artifacts.lookup artifact.name = some prior →
      prior.name = artifact.name ∧ prior.format = artifact.format ∧ prior.bytes <+: artifact.bytes) :
    Reached artifacts artifact ((artifacts.lookup artifact.name).map fun prior => prior.bytes.length) := by
  cases found : artifacts.lookup artifact.name with
  | none => exact found
  | some prior =>
    obtain ⟨name,format,bytes⟩ := published prior found
    refine ⟨bytes.length_le,?_⟩
    rw [found,← name,← format,← List.prefix_iff_eq_take.mp bytes]

theorem remaining_le : remaining artifact offset ≤ artifact.bytes.length + 1 := by
  cases offset with
  | none => exact Nat.le_refl _
  | some start => exact Nat.le_succ_of_le (Nat.sub_le _ _)

variable [Xet] [LawfulSigning] {request : InvocationRequest} {key : SigningKey} {budget : UInt64}
  {events : List OutputEventEnvelope} {stream : OutputStream} {chunkSize : Nat}
  {run : OutputStream × Except OutputError Unit}

def Continued (request : InvocationRequest) (key : SigningKey) (budget : UInt64)
    (events : List OutputEventEnvelope) (stream : OutputStream) : Prop :=
  ∃ more last chunks gathered, Published request key budget (events ++ more) last chunks gathered ∧
    stream = streamAt request key budget (events ++ more) last gathered

theorem Continued.pushed {attempt : Attempt} {room : Nat} {next : OutputStream}
    {envelope : OutputEventEnvelope} (continued : Continued request key budget events stream)
    (pushed : stream.pushInner attempt room = .ok (next, envelope)) :
    Continued request key budget events next ∧ next.artifacts = stream.artifacts.extend attempt.name attempt.format attempt.bytes := by
  obtain ⟨more,last,chunks,gathered,published,rfl⟩ := continued
  obtain ⟨taken,rfl⟩ := pushInner_taken published.room pushed
  obtain ⟨after,same,published⟩ := published.pushed taken
  refine ⟨⟨more ++ [envelope],envelope.eventCommitment,chunks ++ [attempt.chunk],after,?_,?_⟩,rfl⟩
  · rw [← List.append_assoc]
    exact published
  · rw [← List.append_assoc,streamAt,streamAt,same]

theorem Continued.reaches (continued : Continued request key budget events stream)
    (reached : Reached stream.artifacts artifact offset) (later : offset.getD 0 ≤ stop)
    (within : stop ≤ artifact.bytes.length)
    (pushed : stream.pushInner (OutputStream.slice artifact (offset.getD 0) stop) room = .ok (next, envelope)) :
    Continued request key budget events next ∧ Reached next.artifacts artifact (some stop) ∧
      ∀ name, name ≠ artifact.name → next.artifacts.lookup name = stream.artifacts.lookup name := by
  obtain ⟨continued,extended⟩ := continued.pushed pushed
  refine ⟨continued,⟨within,?_⟩,fun name away => ?_⟩
  · rw [extended,extend_lookup,reached.grown later]
    exact if_pos rfl
  · rw [extended,extend_lookup]
    exact if_neg away

-- What a run over tails leaves behind, whether or not it got to its end.
structure Tailed (request : InvocationRequest) (key : SigningKey) (budget : UInt64)
    (events : List OutputEventEnvelope) (stream : OutputStream) (tails : List Artifact)
    (run : OutputStream × Except OutputError Unit) : Prop where
  continued : Continued request key budget events run.1
  elsewhere : ∀ name, name ∉ tails.map Artifact.name →
    run.1.artifacts.lookup name = stream.artifacts.lookup name
  complete : run.2 = .ok () → ∀ artifact ∈ tails,
    run.1.artifacts.lookup artifact.name = some artifact

theorem Tailed.apart (first : Tailed request key budget events stream [artifact] run) (away : name ≠ artifact.name) :
    run.1.artifacts.lookup name = stream.artifacts.lookup name :=
  first.elsewhere name (by simpa using away)

theorem Tailed.cons (first : Tailed request key budget events stream [artifact] (middle, .ok ()))
    (fresh : artifact.name ∉ tails.map Artifact.name) (rest : Tailed request key budget events middle tails run) :
    Tailed request key budget events stream (artifact :: tails) run := by
  refine ⟨rest.continued,fun name other => ?_,fun finished => ?_⟩
  · rw [List.map_cons,List.mem_cons,not_or] at other
    exact (rest.elsewhere name other.2).trans (first.apart other.1)
  · rw [List.forall_mem_cons]
    refine ⟨?_,rest.complete finished⟩
    exact (rest.elsewhere _ fresh).trans (first.complete rfl artifact List.mem_cons_self)

theorem pushTail_tailed {artifact : Artifact} {fuel : Nat} {offset : Option Nat} (positive : 0 < chunkSize)
    (continued : Continued request key budget events stream) (reached : Reached stream.artifacts artifact offset)
    (enough : remaining artifact offset ≤ fuel) :
    Tailed request key budget events stream [artifact] (OutputStream.pushTail artifact chunkSize fuel stream offset) := by
  induction fuel generalizing stream offset with
  | zero =>
    refine ⟨continued,fun _ _ => rfl,fun _ => ?_⟩
    rw [List.forall_mem_singleton]
    exact reached.complete (Nat.le_zero.mp enough)
  | succ fuel ih =>
    unfold OutputStream.pushTail
    split
    · rename_i missing
      split
      · rename_i failure refused
        exact ⟨continued,fun _ _ => rfl,fun done => by cases done⟩
      · rename_i next envelope pushed
        obtain ⟨later,enough⟩ := remaining_step positive missing enough
        obtain ⟨continued,arrived,apart⟩ := continued.reaches reached later (Nat.min_le_left _ _) pushed
        obtain ⟨continued,elsewhere,complete⟩ := ih continued arrived enough
        refine ⟨continued,fun name other => ?_,complete⟩
        have away : name ≠ artifact.name := fun same => other (by simp [same])
        exact (elsewhere name other).trans (apart name away)
    · rename_i done
      refine ⟨continued,fun _ _ => rfl,fun _ => ?_⟩
      rw [List.forall_mem_singleton]
      apply reached.complete
      cases offset with
      | none => simp at done
      | some start =>
        simp only [Option.all_some,decide_eq_true_eq,Nat.not_lt] at done
        exact Nat.sub_eq_zero_of_le done

theorem pushTails_tailed (positive : 0 < chunkSize) (continued : Continued request key budget events stream)
    (distinct : (tails.map Artifact.name).Nodup) (published : ∀ artifact ∈ tails, ∀ prior,
      stream.artifacts.lookup artifact.name = some prior → prior.name = artifact.name ∧
        prior.format = artifact.format ∧ prior.bytes <+: artifact.bytes) :
    Tailed request key budget events stream tails (OutputStream.pushTails chunkSize stream tails) := by
  induction tails generalizing stream with
  | nil => exact ⟨continued,fun _ _ => rfl,fun _ artifact listed => by cases listed⟩
  | cons artifact tails ih =>
    rw [List.map_cons,List.nodup_cons] at distinct
    rw [List.forall_mem_cons] at published
    have first := @pushTail_tailed _ _ _ _ _ _ _ chunkSize _ _ _ positive continued (Reached.of_prefix published.1) remaining_le
    unfold OutputStream.pushTails
    generalize OutputStream.pushTail artifact chunkSize (artifact.bytes.length + 1) stream
      ((stream.artifacts.lookup artifact.name).map fun prior => prior.bytes.length) = run at first
    obtain ⟨next,result⟩ := run
    cases result with
    | error failure =>
      refine ⟨first.continued,fun name other => ?_,fun done => by cases done⟩
      rw [List.map_cons,List.mem_cons,not_or] at other
      exact first.apart other.1
    | ok done =>
      refine first.cons distinct.1 (ih first.continued distinct.2 ?_)
      intro other listed prior found
      have away : other.name ≠ artifact.name := fun same => distinct.1 (same ▸ List.mem_map_of_mem listed)
      rw [show next.artifacts.lookup other.name = _ from first.apart away] at found
      exact published.2 other listed prior found

end Tails

section Completion

variable [Xet] [LawfulSigning] {request : InvocationRequest} {key : SigningKey} {budget : UInt64}
  {events : List OutputEventEnvelope} {last : Digest} {chunks : List ArtifactChunk}
  {gathered : Gathered} {stream : OutputStream} {output : InvocationOutput} {chunkSize : Nat}
  {terminal : Terminal}

-- What a final output has to agree with.
structure Completes (stream : OutputStream) (output : InvocationOutput) (chunkSize : Nat)
    (terminal : Terminal) : Prop where
  succeeded : output.outcome = .succeeded
  made : output.terminal = .ok terminal
  positive : 0 < chunkSize
  published : ∀ name prior, stream.artifacts.lookup name = some prior →
    ∃ artifact ∈ output.artifacts, artifact.name = name ∧ artifact.format = prior.format ∧
      prior.bytes <+: artifact.bytes

theorem checkCompletion_ok (checked : stream.checkCompletion output chunkSize = .ok terminal) :
    Completes stream output chunkSize terminal := by
  simp only [OutputStream.checkCompletion,bind_ok,rejectIf_ok,not_not,not_or,mapError_ok,forM_ok,pure_ok] at checked
  obtain ⟨_,succeeded,_,made,_,⟨positive,-⟩,_,each,rfl⟩ := checked
  refine ⟨succeeded,made,Nat.pos_of_ne_zero positive,?_⟩
  intro name prior found
  have listed : (name, prior) ∈ stream.artifacts.listing.filterMap fun name =>
      (stream.artifacts.lookup name).map fun artifact => (name, artifact) := by
    refine List.mem_filterMap.mpr ⟨name,?_,by rw [found]; rfl⟩
    rw [Slots.mem_listing,found]
    exact Option.some_ne_none prior
  have passed := each _ listed
  simp only [OutputStream.checkPublished,bind_ok,okOr_ok,rejectIf_ok,not_or,not_not,Bool.not_eq_false,
    List.isPrefixOf_iff_prefix] at passed
  obtain ⟨artifact,found,format,bytes⟩ := passed
  have named := List.find?_some found
  exact ⟨artifact,List.mem_of_find?_eq_some found,of_decide_eq_true named,format,bytes⟩

theorem Completes.extends (completes : Completes stream output chunkSize terminal)
    (named : ∀ name prior, stream.artifacts.lookup name = some prior → prior.name = name) :
    ∀ artifact ∈ output.artifacts, ∀ prior, stream.artifacts.lookup artifact.name = some prior →
      prior.name = artifact.name ∧ prior.format = artifact.format ∧ prior.bytes <+: artifact.bytes := by
  intro artifact listed prior found
  obtain ⟨other,member,name,format,bytes⟩ := completes.published _ _ found
  obtain rfl : other = artifact := List.inj_on_of_nodup_map (terminal_ok completes.made).distinct member listed name
  exact ⟨named _ _ found,format.symm,bytes⟩

variable (published : Published request key budget events last chunks gathered)

include published in
theorem Published.named :
    ∀ name artifact, gathered.artifacts.lookup name = some artifact → artifact.name = name := by
  intro name artifact found
  rw [published.collected,collect_lookup,Option.map_eq_some_iff] at found
  obtain ⟨first,-,rfl⟩ := found
  rfl

theorem terminal_concludes (linked : Linked request key events last terminalKind (Wire.terminal.put (terminalKind, terminal)) envelope)
    (succeeded : output.outcome = .succeeded) (made : output.terminal = .ok terminal)
    (values : gathered.artifacts.values = output.artifacts)
    (small : (Wire.terminal.put (terminalKind, terminal)).length < 2^64) :
    gathered.conclude envelope = .ok output := by
  have terminates := terminal_ok made
  have same : gathered.succeeded terminal = output := by
    rw [Gathered.succeeded,values,terminates.metadata,← succeeded]
  have different : ¬terminalKind = failureKind := by decide
  simp only [Gathered.conclude,Gathered.close,Gathered.finish,linked.kind_eq,if_true,if_neg different,bind_ok,rejectIf_ok,
    not_not,okOr_ok,domainIs,linked.payload_eq,Prod.exists,pure_ok]
  refine ⟨(),linked.canonical,_,⟨_,_,terminal_decodes terminates small,(),rfl,rfl⟩,terminal,rfl,terminal,?_,(),rfl,same⟩
  exact (congrArg InvocationOutput.terminal same).trans made

include published in
theorem Published.continued :
    Continued request key budget events (streamAt request key budget events last gathered) :=
  ⟨[],last,chunks,gathered,by rwa [List.append_nil],by rw [List.append_nil]⟩

include published in
theorem Published.tailed (completes : Completes (streamAt request key budget events last gathered) output chunkSize terminal) :
    Tailed request key budget events (streamAt request key budget events last gathered)
      output.artifacts (OutputStream.pushTails chunkSize (streamAt request key budget events last gathered) output.artifacts) :=
  pushTails_tailed completes.positive published.continued (terminal_ok completes.made).distinct (completes.extends published.named)

include published in
theorem appendCompletion_failed (appended : (streamAt request key budget events last gathered).appendCompletion output
      chunkSize = (next, .error cause)) : Continued request key budget events next := by
  unfold OutputStream.appendCompletion at appended
  split at appended
  · cases appended
    exact published.continued
  · rename_i terminal checked
    have tailed := published.tailed (checkCompletion_ok checked)
    split at appended
    · rename_i ran
      cases appended
      rw [ran] at tailed
      exact tailed.continued
    · rename_i middle _ ran
      rw [ran] at tailed
      have continued := tailed.continued
      unfold OutputStream.pushTerminal at appended
      split at appended
      · cases appended
        exact continued
      · split at appended
        · cases appended
          exact continued
        · cases appended

include published in
theorem appendCompletion_accepted (appended : (streamAt request key budget events last gathered).appendCompletion output chunkSize = (next, .ok ())) :
    events <+: next.inner.events ∧ next.inner.events ≠ [] ∧
      verify request (Signing.publicKey key) next.inner.events budget = .ok output := by
  unfold OutputStream.appendCompletion at appended
  split at appended
  · cases appended
  · rename_i terminal checked
    have completes := checkCompletion_ok checked
    have terminates := terminal_ok completes.made
    have tailed := published.tailed completes
    split at appended
    · cases appended
    · rename_i middle _ ran
      rw [ran] at tailed
      obtain ⟨⟨more,last,chunks,after,published,rfl⟩,elsewhere,complete⟩ := tailed
      unfold OutputStream.pushTerminal at appended
      split at appended
      · cases appended
      · rename_i reserved
        split at appended
        · cases appended
        · rename_i inner envelope signed
          cases appended
          obtain ⟨rfl,linked⟩ := pushEnvelope_linked published.room signed
          have affordable := reserve_ok.mp reserved
          have small := budget.toNat_lt
          have values : after.artifacts.values = output.artifacts := by
            refine terminates.values (complete rfl) fun name absent => ?_
            rw [show after.artifacts.lookup name = _ from elsewhere name absent]
            by_contra held
            obtain ⟨prior,found⟩ := Option.ne_none_iff_exists'.mp held
            obtain ⟨artifact,listed,named,-⟩ := completes.published name prior found
            exact absent (named ▸ List.mem_map_of_mem listed)
          have concludes := terminal_concludes linked completes.succeeded completes.made values
            (by change payloadBytes _ + _ ≤ budget.toNat at affordable; omega)
          refine ⟨?_,?_,published.accepted linked affordable concludes⟩
          · exact (List.prefix_append _ _).trans (List.prefix_append _ _)
          · exact List.append_ne_nil_of_right_ne_nil _ (List.cons_ne_nil _ _)

end Completion

end Hellas.Invocation
