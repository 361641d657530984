import Hellas.Invariants.Conservation

-- The byte strings the kernel hashes. Each function writes its domain unprefixed in front of its
-- arguments; no domain begins another, and behind one domain the arguments cancel one by one.

namespace Hellas.Kernel

inductive HashFunction where
  | openHash
  | payloadHash
  | reshapeHash
  | earnedDigest
  | noEarnedDigest
  | settlementCommitment
  | startDigest
  | startId
  | responseDigest
  | contestCommitment
  | freezeDigest
  | edgeId
  | coinGenesis
  | coinPayout
  | coinReshape
  | registryChunkId
  | termsBasic
  | termsWorkPayment
  | termsWorkStakeBond
  deriving DecidableEq

namespace HashFunction

def domain : HashFunction → List UInt8
  | .openHash => Domain.openPayload
  | .payloadHash => Domain.closePayload
  | .reshapeHash => Domain.ownerReshape
  | .earnedDigest => Domain.workEarnedCertificate
  | .noEarnedDigest => Domain.workNoEarnedCertificate
  | .settlementCommitment => Domain.workSettlementState
  | .startDigest => Domain.workStartPaymentClose
  | .startId => Domain.workStartPaymentCloseId
  | .responseDigest => Domain.workRespondPaymentClose
  | .contestCommitment => Domain.workAdjudicatedPaymentClose
  | .freezeDigest => Domain.workFreezeClose
  | .edgeId => Domain.edgeOpen
  | .coinGenesis => Domain.coinGenesis
  | .coinPayout => Domain.coinPayout
  | .coinReshape => Domain.coinReshape
  | .registryChunkId => Domain.registryChunkId
  | .termsBasic => Domain.termsBasic
  | .termsWorkPayment => Domain.termsWorkPayment
  | .termsWorkStakeBond => Domain.termsWorkStakeBond

def all : List HashFunction :=
  [openHash,payloadHash,reshapeHash,earnedDigest,noEarnedDigest,settlementCommitment,startDigest,
    startId,responseDigest,contestCommitment,freezeDigest,edgeId,coinGenesis,coinPayout,coinReshape,
    registryChunkId,termsBasic,termsWorkPayment,termsWorkStakeBond]

theorem mem_all (function : HashFunction) : function ∈ all := by
  cases function <;> simp [all]

theorem domain_begins {first second : HashFunction} (begins : first.domain <+: second.domain) : first = second := by
  have apart : ∀ left ∈ all, ∀ right ∈ all, left.domain <+: right.domain → left = right := by
    decide +kernel
  exact apart first first.mem_all second second.mem_all begins

theorem domain_apart {first second : HashFunction} (begins : first.domain ++ left <+: second.domain ++ right) : first = second := by
  have whole : first.domain <+: second.domain ++ right := (List.prefix_append _ left).trans begins
  rcases List.prefix_or_prefix_of_prefix whole (List.prefix_append _ right) with short | long
  · exact domain_begins short
  · exact (domain_begins long).symm

end HashFunction

-- A call of one of these functions, with the arguments it takes. A position in an output list is a
-- `usize`, written as a `u64`.
inductive Call where
  | openHash (network : NetworkId) (funding : Funding) (terms : Terms)
  | payloadHash (network : NetworkId) (input : EdgeId) (kind : CloseKind) (terms : TermsHash)
      (outputs : Payouts)
  | reshapeHash (network : NetworkId) (inputs : ReshapeInputs) (outputs : Payouts)
  | earnedDigest (network : NetworkId) (certificate : EarnedCertificate)
  | noEarnedDigest (edge : EdgeId) (terms : TermsHash)
  | settlementCommitment (network : NetworkId) (edge : EdgeId) (terms : TermsHash)
      (amount : UInt64)
  | startDigest (network : NetworkId) (edge : EdgeId) (terms : TermsHash) (opener : Party)
      (validity : UInt64 × UInt64) (earned : PayloadHash)
  | startId (digest : PayloadHash) (height : UInt64)
  | responseDigest (network : NetworkId) (edge : EdgeId) (terms : TermsHash) (start : StartId)
      (responder : Party) (earned : PayloadHash)
  | contestCommitment (record : PendingPaymentClose) (network : NetworkId) (edge : EdgeId)
      (terms : TermsHash)
  | freezeDigest (network : NetworkId) (edge : EdgeId) (terms : TermsHash) (earned : UInt64)
      (validity : UInt64 × UInt64)
  | edgeId (funding : Funding) (terms : TermsHash)
  | coinGenesis (index : UInt32)
  | coinPayout (edge : EdgeId) (index : UInt64) (owner : Key)
  | coinReshape (network : NetworkId) (inputs : ReshapeInputs) (index : UInt64) (owner : Key)
  | registryChunkId (network : NetworkId) (space : RegistryNamespace) (key : FixedBytes 32)
      (index : UInt8)
  | termsBasic (protocol : ProtocolCode) (parties : Parties) (timeout : BlockHeight)
      (outputs : Payouts)
  | termsWorkPayment (payment : WorkPaymentTerms)
  | termsWorkStakeBond (bond : WorkStakeBondTerms)

namespace Call

def function : Call → HashFunction
  | .openHash .. => .openHash
  | .payloadHash .. => .payloadHash
  | .reshapeHash .. => .reshapeHash
  | .earnedDigest .. => .earnedDigest
  | .noEarnedDigest .. => .noEarnedDigest
  | .settlementCommitment .. => .settlementCommitment
  | .startDigest .. => .startDigest
  | .startId .. => .startId
  | .responseDigest .. => .responseDigest
  | .contestCommitment .. => .contestCommitment
  | .freezeDigest .. => .freezeDigest
  | .edgeId .. => .edgeId
  | .coinGenesis .. => .coinGenesis
  | .coinPayout .. => .coinPayout
  | .coinReshape .. => .coinReshape
  | .registryChunkId .. => .registryChunkId
  | .termsBasic .. => .termsBasic
  | .termsWorkPayment .. => .termsWorkPayment
  | .termsWorkStakeBond .. => .termsWorkStakeBond

def ofTerms : Terms → Call
  | .basic protocol parties timeout outputs => .termsBasic protocol parties timeout outputs
  | .workPayment payment => .termsWorkPayment payment
  | .workStakeBond bond => .termsWorkStakeBond bond

variable [Xet]

def body : Call → List UInt8
  | .openHash network funding terms => encode network ++ encode (Tx.edgeIdOf funding terms)
  | .payloadHash network input kind terms outputs => encode network ++ (encode input ++
      (encode kind.tag ++ (encode terms ++ encode outputs)))
  | .reshapeHash network inputs outputs => encode network ++ (encode inputs ++ encode outputs)
  | .earnedDigest network certificate => encode network ++ (encode certificate.paymentEdge ++
      (encode certificate.paymentTermsHash ++ encode certificate))
  | .noEarnedDigest edge terms => encode edge ++ encode terms
  | .settlementCommitment network edge terms amount => encode network ++ (encode edge ++
      (encode terms ++ encode amount))
  | .startDigest network edge terms opener validity earned => encode network ++ (encode edge ++
      (encode terms ++ (encode opener ++ (encode validity.1 ++ (encode validity.2 ++ encode earned)))))
  | .startId digest height => encode digest ++ encode height
  | .responseDigest network edge terms start responder earned => encode network ++ (encode edge ++
      (encode terms ++ (encode start ++ (encode responder ++ encode earned))))
  | .contestCommitment record network edge terms => encode network ++ (encode edge ++
      (encode terms ++ (encode record.startId ++ (encode record.responseDeadline ++
        (encode record.startCumulative ++ (encode record.finalCumulative ++
          (encode (flag record.penaltyDue) ++ (encode record.penaltyAmount ++
            (encode (flag record.ownerSigned.1) ++ encode (flag record.ownerSigned.2))))))))))
  | .freezeDigest network edge terms earned validity => encode network ++ (encode edge ++
      (encode terms ++ (encode (Kernel.settlementCommitment network edge terms earned) ++ (encode validity.1 ++ encode validity.2))))
  | .edgeId funding terms => encode terms ++ (encode funding.maker ++ encode funding.taker)
  | .coinGenesis index => encode index
  | .coinPayout edge index owner => encode edge ++ (encode index ++ encode owner)
  | .coinReshape network inputs index owner => encode network ++ (encode inputs ++
      (encode index ++ encode owner))
  | .registryChunkId network space key index => encode network ++ (encode space ++
      (encode key ++ encode index))
  | .termsBasic protocol parties timeout outputs => encode (Terms.basic protocol parties timeout outputs)
  | .termsWorkPayment payment => encode (Terms.workPayment payment)
  | .termsWorkStakeBond bond => encode (Terms.workStakeBond bond)

def preimage (call : Call) : List UInt8 := call.function.domain ++ call.body

def digest : Call → FixedBytes 32
  | .openHash network funding terms => (Tx.openHash network funding terms).raw
  | .payloadHash network input kind terms outputs => (Tx.payloadHash network input kind terms outputs).raw
  | .reshapeHash network inputs outputs => (Reshape.payloadHash network inputs outputs).raw
  | .earnedDigest network certificate => (certificate.digest network).raw
  | .noEarnedDigest edge terms => (Kernel.noEarnedDigest edge terms).raw
  | .settlementCommitment network edge terms amount => Kernel.settlementCommitment network edge terms amount
  | .startDigest network edge terms opener validity earned => (Kernel.startDigest network edge terms opener validity earned).raw
  | .startId digest height => (startIdOf digest height).raw
  | .responseDigest network edge terms start responder earned => (Kernel.responseDigest network edge terms start responder earned).raw
  | .contestCommitment record network edge terms => (record.contestCommitment network edge terms).raw
  | .freezeDigest network edge terms earned validity => (Kernel.freezeDigest network edge terms earned validity).raw
  | .edgeId funding terms => (Kernel.edgeId funding terms).raw
  | .coinGenesis index => (CoinId.genesis index).raw
  | .coinPayout edge index owner => (CoinId.payout edge index.toNat owner).raw
  | .coinReshape network inputs index owner => (CoinId.reshape network inputs index.toNat owner).raw
  | .registryChunkId network space key index => (RegistryChunkId.derive network space key index).raw
  | .termsBasic protocol parties timeout outputs => (Terms.basic protocol parties timeout outputs).hash.raw
  | .termsWorkPayment payment => (Terms.workPayment payment).hash.raw
  | .termsWorkStakeBond bond => (Terms.workStakeBond bond).hash.raw

theorem digest_hashes (call : Call) : call.digest = Xet.hash call.preimage := by
  cases call with
  | coinPayout edge index owner =>
    simp only [digest,CoinId.payout,encodeUsize_toNat]
    rfl
  | coinReshape network inputs index owner =>
    simp only [digest,CoinId.reshape,encodeUsize_toNat]
    rfl
  | _ => rfl

theorem digest_terms (terms : Terms) : (ofTerms terms).digest = terms.hash.raw := by
  cases terms <;> rfl

def inner : Call → List Call
  | .openHash _ funding terms => [.edgeId funding terms.hash,ofTerms terms]
  | .freezeDigest network edge terms earned _ => [.settlementCommitment network edge terms earned]
  | _ => []

-- The record's opener, its responded flag and the edge it names are not written.
def written : Call → Call
  | .contestCommitment record network edge terms =>
      .contestCommitment { record with
        paymentEdge := edge
        openerRole := .maker
        responded := false } network edge terms
  | call => call

def Apart (calls : List Call) : Prop := Set.InjOn Xet.hash { bytes | ∃ call ∈ calls, call.preimage = bytes }

theorem Apart.preimage (apart : Apart calls) (first second : Call) (left : first ∈ calls)
    (right : second ∈ calls) (same : first.digest = second.digest) :
    first.preimage = second.preimage := by
  rw [digest_hashes,digest_hashes] at same
  exact apart ⟨first,left,rfl⟩ ⟨second,right,rfl⟩ same

theorem Apart.mono {fewer : List Call} (apart : Apart calls) (within : ∀ call ∈ fewer, call ∈ calls) : Apart fewer :=
  Set.InjOn.mono (by
    intro bytes found
    obtain ⟨call,member,same⟩ := found
    exact ⟨call,within call member,same⟩) apart

theorem function_of_begins {first second : Call} (begins : first.preimage <+: second.preimage) :
    first.function = second.function :=
  HashFunction.domain_apart begins

theorem function_of_preimage {first second : Call} (same : first.preimage = second.preimage) :
    first.function = second.function := by
  apply function_of_begins
  rw [same]

theorem body_of_preimage {first second : Call} (same : first.preimage = second.preimage) :
    first.body = second.body := by
  have function := function_of_preimage same
  unfold preimage at same
  rw [function] at same
  exact List.append_cancel_left same

theorem terms_of_preimage {first second : Terms} (same : (ofTerms first).preimage = (ofTerms second).preimage) : first = second := by
  have bodies := body_of_preimage same
  have encoded (terms : Terms) : (ofTerms terms).body = encode terms := by cases terms <;> rfl
  rw [encoded,encoded] at bodies
  exact encode_inj.mp bodies

theorem edge_of_body (bodies : (Call.edgeId first left).body = (Call.edgeId second right).body) :
    first = second ∧ left = right := by
  simp only [body,encode_cancel,encode_inj] at bodies
  obtain ⟨terms,maker,taker⟩ := bodies
  cases first
  cases second
  cases maker
  cases taker
  exact ⟨rfl,terms⟩

theorem open_args (apart : Apart calls) {left right : Terms} (firstEdge : Call.edgeId first left.hash ∈ calls)
    (secondEdge : Call.edgeId second right.hash ∈ calls) (firstTerms : ofTerms left ∈ calls)
    (secondTerms : ofTerms right ∈ calls) (same : Tx.edgeIdOf first left = Tx.edgeIdOf second right) :
    first = second ∧ left = right := by
  have edges := apart.preimage _ _ firstEdge secondEdge (congrArg EdgeId.raw same)
  obtain ⟨funding,hashes⟩ := edge_of_body (body_of_preimage edges)
  refine ⟨funding,terms_of_preimage (apart.preimage _ _ firstTerms secondTerms ?_)⟩
  rw [digest_terms,digest_terms,hashes]

theorem settlement_amount (apart : Apart calls) (left : Call.settlementCommitment network edge terms first ∈ calls)
    (right : Call.settlementCommitment network edge terms second ∈ calls)
    (same : Kernel.settlementCommitment network edge terms first =
      Kernel.settlementCommitment network edge terms second) : first = second := by
  have bodies := body_of_preimage (apart.preimage _ _ left right same)
  simp only [body,encode_network_cancel,encode_cancel,encode_inj] at bodies
  exact bodies.2.2.2

end Call

theorem CloseKind.tag_inj {first second : CloseKind} : first.tag = second.tag ↔ first = second := by
  constructor
  · cases first <;> cases second <;> decide
  · intro same
    rw [same]

theorem flag_inj : flag first = flag second ↔ first = second := by
  cases first <;> cases second <;> decide

namespace Call

variable [Xet]

theorem args_of_body {first second : Call} (apart : Apart (first.inner ++ second.inner))
    (function : first.function = second.function) (bodies : first.body = second.body) :
    first.written = second.written := by
  cases first with
  | openHash network funding terms =>
    cases second with
    | openHash =>
      simp only [body,encode_network_cancel,encode_inj] at bodies
      obtain ⟨rfl,edges⟩ := bodies
      obtain ⟨rfl,rfl⟩ := open_args apart (by simp [inner]) (by simp [inner]) (by simp [inner])
        (by simp [inner]) edges
      rfl
    | _ => cases function
  | freezeDigest network edge terms earned validity =>
    cases second with
    | freezeDigest =>
      simp only [body,encode_network_cancel,encode_cancel,encode_inj] at bodies
      obtain ⟨rfl,rfl,rfl,settled,opens,closes⟩ := bodies
      obtain rfl := settlement_amount apart (by simp [inner]) (by simp [inner]) settled
      obtain rfl := Prod.ext opens closes
      rfl
    | _ => cases function
  | contestCommitment record network edge terms =>
    cases second with
    | contestCommitment other =>
      simp only [body,encode_network_cancel,encode_cancel,encode_inj,flag_inj] at bodies
      obtain ⟨rfl,rfl,rfl,start,deadline,claimed,final,due,amount,maker,taker⟩ := bodies
      simp only [written,start,deadline,claimed,final,due,amount,Prod.ext maker taker]
    | _ => cases function
  | payloadHash network input kind terms outputs =>
    cases second with
    | payloadHash =>
      simp only [body,encode_network_cancel,encode_cancel,encode_inj,CloseKind.tag_inj] at bodies
      obtain ⟨rfl,rfl,rfl,rfl,rfl⟩ := bodies
      rfl
    | _ => cases function
  | earnedDigest network certificate =>
    cases second with
    | earnedDigest =>
      simp only [body,encode_network_cancel,encode_cancel,encode_inj] at bodies
      obtain ⟨rfl,-,-,rfl⟩ := bodies
      rfl
    | _ => cases function
  | startDigest network edge terms opener validity earned =>
    cases second with
    | startDigest =>
      simp only [body,encode_network_cancel,encode_cancel,encode_inj] at bodies
      obtain ⟨rfl,rfl,rfl,rfl,opens,closes,rfl⟩ := bodies
      obtain rfl := Prod.ext opens closes
      rfl
    | _ => cases function
  -- The bodies that are their arguments one after another.
  | reshapeHash | noEarnedDigest | settlementCommitment | startId | responseDigest | coinPayout | coinReshape | registryChunkId =>
    cases second <;> cases function
    simp only [body,encode_network_cancel,encode_cancel,encode_inj] at bodies
    simp only [bodies]
  | edgeId funding terms =>
    cases second with
    | edgeId =>
      obtain ⟨rfl,rfl⟩ := edge_of_body bodies
      rfl
    | _ => cases function
  | coinGenesis index =>
    cases second with
    | coinGenesis => rw [encode_inj.mp bodies]
    | _ => cases function
  | termsBasic | termsWorkPayment | termsWorkStakeBond =>
    cases second <;> cases function
    cases encode_inj.mp bodies
    rfl

theorem args_of_preimage {first second : Call} (apart : Apart (first.inner ++ second.inner))
    (same : first.preimage = second.preimage) : first.written = second.written :=
  args_of_body apart (function_of_preimage same) (body_of_preimage same)

end Call

-- What a party signs. A start and a response name their certificate by its digest, and a start that
-- claims nothing by a constant of its own.
inductive Signed where
  | opening (network : NetworkId) (funding : Funding) (terms : Terms)
  | closing (network : NetworkId) (input : EdgeId) (kind : CloseKind) (terms : TermsHash)
      (outputs : Payouts)
  | reshape (network : NetworkId) (inputs : ReshapeInputs) (outputs : Payouts)
  | earning (network : NetworkId) (certificate : EarnedCertificate)
  | start (network : NetworkId) (edge : EdgeId) (terms : Terms) (opener : Party)
      (validity : UInt64 × UInt64) (certificate : Option EarnedCertificate)
  | response (network : NetworkId) (edge : EdgeId) (terms : TermsHash) (start : StartId)
      (responder : Party) (certificate : EarnedCertificate)
  | freeze (network : NetworkId) (edge : EdgeId) (terms : TermsHash) (earned : UInt64)
      (validity : UInt64 × UInt64)

namespace Signed

variable [Xet]

def claim (network : NetworkId) (edge : EdgeId) (terms : Terms) :
    Option EarnedCertificate → Call
  | none => .noEarnedDigest edge terms.hash
  | some certificate => .earnedDigest network certificate

def call : Signed → Call
  | .opening network funding terms => .openHash network funding terms
  | .closing network input kind terms outputs => .payloadHash network input kind terms outputs
  | .reshape network inputs outputs => .reshapeHash network inputs outputs
  | .earning network certificate => .earnedDigest network certificate
  | .start network edge terms opener validity certificate =>
      .startDigest network edge terms.hash opener validity ⟨(claim network edge terms certificate).digest⟩
  | .response network edge terms contest responder certificate =>
      .responseDigest network edge terms contest responder (certificate.digest network)
  | .freeze network edge terms earned validity => .freezeDigest network edge terms earned validity

def calls (signed : Signed) : List Call :=
  signed.call :: match signed with
    | .start network edge terms _ _ certificate => [claim network edge terms certificate,Call.ofTerms terms]
    | .response network _ _ _ _ certificate => [.earnedDigest network certificate]
    | other => other.call.inner

def digest (signed : Signed) : PayloadHash := ⟨signed.call.digest⟩

theorem start_digest (network : NetworkId) (start : PaymentCloseStart) :
    start.digest network = (Signed.start network start.paymentEdge start.terms start.openerRole
      (start.validFromHeight, start.validThroughHeight) (start.certificate.map Prod.fst)).digest := by
  unfold PaymentCloseStart.digest
  cases start.certificate <;> rfl

theorem mem_calls (signed : Signed) : signed.call ∈ signed.calls := by
  simp [calls]

theorem inner_calls (signed : Signed) : ∀ call ∈ signed.call.inner, call ∈ signed.calls := by
  intro nested member
  cases signed with
  | start => cases member
  | response => cases member
  | _ => exact List.mem_cons_of_mem _ member

theorem call_written (signed : Signed) : signed.call.written = signed.call := by
  cases signed <;> rfl

theorem claim_inj {calls : List Call} (apart : Call.Apart calls) {network : NetworkId} {edge : EdgeId} {terms : Terms}
    {first second : Option EarnedCertificate} (left : claim network edge terms first ∈ calls)
    (right : claim network edge terms second ∈ calls)
    (same : (claim network edge terms first).digest = (claim network edge terms second).digest) :
    first = second := by
  have preimages := apart.preimage _ _ left right same
  have function := Call.function_of_preimage preimages
  cases first with
  | none =>
    cases second with
    | none => rfl
    | some other => cases function
  | some certificate =>
    cases second with
    | none => cases function
    | some other =>
      cases Call.args_of_preimage (apart.mono (by simp [claim,Call.inner])) preimages
      rfl

theorem digest_inj {first second : Signed} (apart : Call.Apart (first.calls ++ second.calls))
    (same : first.digest = second.digest) : first = second := by
  have preimages := apart.preimage _ _ (List.mem_append_left _ first.mem_calls)
    (List.mem_append_right _ second.mem_calls) (congrArg PayloadHash.raw same)
  have nested : ∀ call ∈ first.call.inner ++ second.call.inner, call ∈ first.calls ++ second.calls := by
    intro call member
    rcases List.mem_append.mp member with left | right
    · exact List.mem_append_left _ (first.inner_calls call left)
    · exact List.mem_append_right _ (second.inner_calls call right)
  have calls := Call.args_of_preimage (apart.mono nested) preimages
  rw [call_written,call_written] at calls
  cases first with
  | start network edge terms opener validity certificate =>
    cases second with
    | start _ _ other _ _ rival =>
      simp only [call,Call.startDigest.injEq] at calls
      obtain ⟨rfl,rfl,hashes,rfl,rfl,claims⟩ := calls
      have revealed : (Call.ofTerms terms).digest = (Call.ofTerms other).digest := by
        rw [Call.digest_terms,Call.digest_terms,hashes]
      obtain rfl := Call.terms_of_preimage (apart.preimage _ _ (by simp [Signed.calls]) (by simp [Signed.calls]) revealed)
      obtain rfl := claim_inj apart (by simp [Signed.calls]) (by simp [Signed.calls])
        (congrArg PayloadHash.raw claims)
      rfl
    | _ => cases calls
  | response network edge terms contest responder certificate =>
    cases second with
    | response _ _ _ _ _ rival =>
      simp only [call,Call.responseDigest.injEq] at calls
      obtain ⟨rfl,rfl,rfl,rfl,rfl,claims⟩ := calls
      have earned := apart.preimage (.earnedDigest network certificate)
        (.earnedDigest network rival) (by simp [Signed.calls]) (by simp [Signed.calls])
        (congrArg PayloadHash.raw claims)
      cases Call.args_of_preimage (apart.mono (by simp [Call.inner])) earned
      rfl
    | _ => cases calls
  | _ =>
    cases second <;> cases calls
    rfl

end Signed

-- No preimage begins a preimage of another function; equal preimages are one function's on one
-- list of arguments, a contest's unwritten fields apart; and no two things a party may sign have one
-- digest where the digest tells apart what they are made from.
theorem preimages_injective [Xet] :
    (∀ first second : Call, first.function ≠ second.function → ¬first.preimage <+: second.preimage) ∧
    (∀ first second : Call, Call.Apart (first.inner ++ second.inner) →
      first.preimage = second.preimage → first.written = second.written) ∧
    ∀ first second : Signed, Call.Apart (first.calls ++ second.calls) → first.digest = second.digest → first = second := by
  refine ⟨?_,?_,?_⟩
  · intro first second other begins
    exact other (Call.function_of_begins begins)
  · intro first second apart same
    exact Call.args_of_preimage apart same
  · intro first second apart same
    exact Signed.digest_inj apart same

namespace Sample

attribute [local instance] checksum

def signedStart : Signed := .start network paymentEdge (.workPayment payment) .maker (10, 19) none
def signedFreeze : Signed := .freeze network paymentEdge (Terms.workPayment payment).hash 50 (10, 19)

theorem signed_apart : Call.Apart (signedStart.calls ++ signedFreeze.calls) := by
  have apart : ∀ first ∈ signedStart.calls ++ signedFreeze.calls, ∀ second ∈ signedStart.calls ++ signedFreeze.calls,
        Xet.hash first.preimage = Xet.hash second.preimage → first.preimage = second.preimage := by
    decide +kernel
  rintro _ ⟨first,left,rfl⟩ _ ⟨second,right,rfl⟩ same
  exact apart first left second right same

theorem preimages_injective_start :
    Call.Apart (signedStart.calls ++ signedFreeze.calls) ∧
      close.digest network = signedStart.digest ∧ signedStart.digest ≠ signedFreeze.digest := by
  refine ⟨signed_apart,Signed.start_digest network close,?_⟩
  intro same
  cases preimages_injective.2.2 _ _ signed_apart same

-- A record written under another edge's name commits alike.
theorem contest_edge_unwritten :
    let renamed := { record with paymentEdge := bondEdge }
    let terms := (Terms.workPayment payment).hash
    (Call.contestCommitment record network paymentEdge terms).preimage =
        (Call.contestCommitment renamed network paymentEdge terms).preimage ∧
      record.openerRole = renamed.openerRole ∧ record.responded = renamed.responded ∧
      record ≠ renamed := by
  refine ⟨rfl,rfl,rfl,?_⟩
  decide +kernel

end Sample

end Hellas.Kernel
