import Hellas.Kernel.Auth
import Hellas.Kernel.Error

-- Coins, payouts, party keys, close kinds and edges.

namespace Hellas.Kernel

open Codec Guard Words

-- `delegate` may spend the coin only to fund a work open or a bond, under its own signature.
structure Coin where
  owner : Key
  delegate : Option Key
  value : UInt64
  deriving DecidableEq

def Coin.issue (owner : Key) (delegate : Option Key) (value : UInt64) : Coin := ⟨owner,delegate,value⟩

structure Payout where
  owner : Key
  delegate : Option Key
  value : UInt64
  deriving DecidableEq

namespace Payout

def new (owner : Key) (value : UInt64) : Payout := ⟨owner,none,value⟩

def delegated (owner : Key) (delegate : Option Key) (value : UInt64) : Payout := ⟨owner,delegate,value⟩

def coin (payout : Payout) : Coin := Coin.issue payout.owner payout.delegate payout.value

end Payout

abbrev Payouts := BoundedList Payout maxEdgeOutputs

-- Coins and payouts share one layout under different tags.
def encodeOwned (tag : UInt8) (owner : Key) (delegate : Option Key) (value : UInt64) :
    List UInt8 :=
  encodeEnvelope tag ++ (encode owner ++ (encode delegate ++ encode value))

def decodeOwned (tag : UInt8) (make : Key → Option Key → UInt64 → α) : Decoder DecodeError α :=
  decodeComposite tag do
    let owner ← decodeField
    let delegate ← decodeField
    let value ← decodeField
    pure (make owner delegate value)

theorem decodeOwned_exact {make : Key → Option Key → UInt64 → α} {owner : α → Key} {delegate : α → Option Key}
    {value : α → UInt64} (fields : ∀ a o d v, a = make o d v ↔ owner a = o ∧ delegate a = d ∧ value a = v) :
    Exact (fun _ => True) (fun a => encodeOwned tag (owner a) (delegate a) (value a)) (decodeOwned tag make) :=
  composite_exact (parses_congr (parses_read fun _ => parses_read fun _ => parses_read fun _ =>
    parses_pure) (by
      intro a bytes
      constructor
      · rintro ⟨o,s,t,rfl,⟨d,s,t,rfl,⟨v,s,t,rfl,⟨made,rfl⟩,rfl⟩,rfl⟩,rfl⟩
        obtain ⟨rfl,rfl,rfl⟩ := (fields _ _ _ _).mp made
        simp
      · rintro ⟨-,rfl⟩
        exact ⟨_,_,_,rfl,⟨_,_,_,rfl,⟨_,_,[],rfl,⟨(fields _ _ _ _).mpr ⟨rfl,rfl,rfl⟩,rfl⟩,rfl⟩,rfl⟩,by simp⟩))

theorem encodeOwned_length {tag : UInt8} {owner : Key} {delegate : Option Key} {value : UInt64} :
    (encodeOwned tag owner delegate value).length = envelopeSize + maxEncodedSize Key + encodedSize delegate + 8 := by
  simp only [encodeOwned,List.length_append,encodeEnvelope_length,Lawful.size,FixedSize.size,FixedSize.max,Nat.add_assoc]

theorem encodedSize_owned_le {delegate : Option Key} :
    envelopeSize + maxEncodedSize Key + encodedSize delegate + 8 ≤ envelopeSize + maxEncodedSize Key + maxEncodedSize (Option Key) + 8 := by
  have bounded := Lawful.bound delegate
  omega

instance : Encode Coin where
  maxEncodedSize := envelopeSize + maxEncodedSize Key + maxEncodedSize (Option Key) + 8
  encodedSize coin := envelopeSize + maxEncodedSize Key + encodedSize coin.delegate + 8
  encode coin := encodeOwned Tag.coin coin.owner coin.delegate coin.value

instance : Decode Coin where
  decode := decodeOwned Tag.coin Coin.mk

instance : Lawful Coin where
  size _ := encodeOwned_length
  bound _ := encodedSize_owned_le
  exact := decodeOwned_exact (by rintro ⟨owner,delegate,value⟩ o d v; simp)

instance : Encode Payout where
  maxEncodedSize := envelopeSize + maxEncodedSize Key + maxEncodedSize (Option Key) + 8
  encodedSize payout := envelopeSize + maxEncodedSize Key + encodedSize payout.delegate + 8
  encode payout := encodeOwned Tag.payout payout.owner payout.delegate payout.value

instance : Decode Payout where
  decode := decodeOwned Tag.payout Payout.mk

instance : Lawful Payout where
  size _ := encodeOwned_length
  bound _ := encodedSize_owned_le
  exact := decodeOwned_exact (by rintro ⟨owner,delegate,value⟩ o d v; simp)

instance : Lawful Payouts := lawful_list (by decide)

-- A party's committed destination is `(owner, payoutDelegate)`; `signer` may act for it.
structure PartyKeys where
  owner : Key
  signer : Key
  payoutDelegate : Option Key
  deriving DecidableEq

namespace PartyKeys

def sole (key : Key) : PartyKeys := ⟨key,key,none⟩

def key (party : PartyKeys) : Authority → Key
  | .owner => party.owner
  | .signer => party.signer

-- An owner-signed close issues the payout undelegated whatever the terms committed.
def payout (party : PartyKeys) (value : UInt64) (ownerSigned : Bool) : Payout :=
  let delegate := if ownerSigned then none else party.payoutDelegate
  Payout.delegated party.owner delegate value

def isDestination (party : PartyKeys) (payout : Payout) (ownerSigned : Bool) : Bool := payout == party.payout payout.value ownerSigned

end PartyKeys

instance : Encode PartyKeys where
  maxEncodedSize := 2 * maxEncodedSize Key + maxEncodedSize (Option Key)
  encodedSize party := 2 * maxEncodedSize Key + encodedSize party.payoutDelegate
  encode party := encode party.owner ++ (encode party.signer ++ encode party.payoutDelegate)

instance : Decode PartyKeys where
  decode buf := (do
    let owner ← decodeField
    let signer ← decodeField
    let payoutDelegate ← decodeField
    pure ⟨owner,signer,payoutDelegate⟩ : Cursor DecodeError PartyKeys) buf 0

instance : Lawful PartyKeys where
  size party := by
    change List.length (_ ++ (_ ++ _)) = _ * _ + _
    simp only [List.length_append,Lawful.size,FixedSize.size,FixedSize.max]
    omega
  bound party := Nat.add_le_add_left (Lawful.bound party.payoutDelegate) _
  exact := parses_exact (parses_congr (parses_read fun _ => parses_read fun _ =>
    parses_read fun _ => parses_pure)
    (by rintro ⟨owner,signer,delegate⟩ bytes; simp [encode]))

structure Parties where
  maker : PartyKeys
  taker : PartyKeys
  deriving DecidableEq

def Parties.isDestination (parties : Parties) (payout : Payout) (ownerSigned : Bool) : Bool :=
  parties.maker.isDestination payout ownerSigned || parties.taker.isDestination payout ownerSigned

def Party.keysOf (party : Party) (parties : Parties) : PartyKeys :=
  match party with
  | .maker => parties.maker
  | .taker => parties.taker

instance : Encode Parties where
  maxEncodedSize := envelopeSize + 2 * maxEncodedSize PartyKeys
  encodedSize parties := envelopeSize + encodedSize parties.maker + encodedSize parties.taker
  encode parties := encodeEnvelope Tag.parties ++ (encode parties.maker ++ encode parties.taker)

instance : Decode Parties where
  decode := decodeComposite Tag.parties do
    let maker ← decodeField
    let taker ← decodeField
    pure ⟨maker,taker⟩

instance : Lawful Parties where
  size parties := by
    change List.length (_ ++ (_ ++ _)) = _ + _ + _
    simp only [List.length_append,encodeEnvelope_length,Lawful.size,Nat.add_assoc]
  bound parties := by
    change _ + _ + _ ≤ _ + 2 * _
    have maker := Lawful.bound parties.maker
    have taker := Lawful.bound parties.taker
    omega
  exact := composite_exact (parses_congr (parses_read fun _ => parses_read fun _ => parses_pure) (by rintro ⟨maker,taker⟩ bytes; simp))

-- Tags 2 and 5 belonged to deleted closes.
inductive CloseKind where
  | mutualClose
  | timeout
  | freeze
  | adjudicated
  deriving DecidableEq

namespace CloseKind

def tag : CloseKind → UInt8
  | .mutualClose => 0
  | .timeout => 1
  | .freeze => 3
  | .adjudicated => 4

def proofs : CloseKind → UInt64
  | .timeout | .adjudicated => 1
  | .mutualClose | .freeze => 2

def bit (kind : CloseKind) : UInt8 := 1 <<< kind.tag

end CloseKind

structure CloseKindSet where
  bits : UInt8
  deriving DecidableEq

namespace CloseKindSet

def empty : CloseKindSet := ⟨0⟩
def insert (set : CloseKindSet) (kind : CloseKind) : CloseKindSet := ⟨set.bits ||| kind.bit⟩
def contains (set : CloseKindSet) (kind : CloseKind) : Bool := set.bits &&& kind.bit != 0

def basic : CloseKindSet := (empty.insert .mutualClose).insert .timeout
def workStakeBond : CloseKindSet := empty.insert .timeout
-- No timeout: the payment horizon is an admission deadline, not a refund.
def workPayment : CloseKindSet := (empty.insert .freeze).insert .adjudicated

def permitted : List CloseKindSet := [basic,workStakeBond,workPayment]

-- The sets a committed terms shape can give an edge.
def Permitted (set : CloseKindSet) : Prop := set ∈ permitted

end CloseKindSet

instance : Encode CloseKindSet where
  maxEncodedSize := 1
  encodedSize _ := 1
  encode set := encode set.bits

-- Anything but a permitted set is corrupt state, not data.
instance : Decode CloseKindSet where
  decode buf := (do
    let bits : UInt8 ← decodeField
    let set : CloseKindSet := ⟨bits⟩
    if set ∉ CloseKindSet.permitted then throw (.invalidTag bits)
    else pure set : Cursor DecodeError CloseKindSet) buf 0

theorem CloseKindSet.exact : Exact CloseKindSet.Permitted encode decode :=
  parses_exact (parses_congr (parses_read fun _ => parses_ite parses_throw parses_pure) (by
      rintro ⟨bits⟩ bytes
      simp only [ite_not,Permitted]
      constructor
      · rintro ⟨found,s,t,rfl,shape,rfl⟩
        split at shape
        · obtain ⟨same,rfl⟩ := shape
          cases same
          exact ⟨‹_›,by simp [encode]⟩
        · exact shape.elim
      · rintro ⟨allowed,rfl⟩
        exact ⟨bits,_,[],rfl,by simp [allowed],by simp [encode]⟩))

instance : FixedSize CloseKindSet 1 := ⟨fun _ => rfl,rfl⟩

-- The three numbers a close distributes from.
structure EdgeValues where
  value : UInt64
  reserve : UInt64
  closeFees : Fees
  deriving DecidableEq

-- The principal plus the part of the open-time reserve this close does not consume, priced by the
-- schedule stored at open.
def EdgeValues.closeValue (values : EdgeValues) (closeCost : Cost) : Option UInt64 := do
  let fee ← values.closeFees.charge closeCost
  let surplus ← checkedSub values.reserve fee
  checkedAdd values.value surplus

theorem EdgeValues.closeValue_exact {values : EdgeValues} {cost : Cost} {total : UInt64} :
    values.closeValue cost = some total ↔ values.closeFees.price cost ≤ values.reserve.toNat ∧
        values.value.toNat + values.reserve.toNat = total.toNat + values.closeFees.price cost := by
  simp only [closeValue,Option.bind_eq_bind,Option.bind_eq_some_iff,Fees.charge_exact,checkedSub_exact,checkedAdd_exact]
  constructor
  · rintro ⟨fee,priced,surplus,covered,summed⟩
    omega
  · rintro ⟨covered,balanced⟩
    have bound := values.reserve.toNat_lt
    obtain ⟨fee,priced⟩ := exists_word (show values.closeFees.price cost < 2^64 by omega)
    obtain ⟨surplus,rest⟩ := exists_word (show values.reserve.toNat - values.closeFees.price cost < 2^64 by omega)
    exact ⟨fee,priced,surplus,by omega,by omega⟩

structure Edge where
  value : UInt64
  reserve : UInt64
  closeFees : Fees
  timeout : BlockHeight
  parties : Parties
  terms : TermsHash
  allowed : CloseKindSet
  deriving DecidableEq

namespace Edge

-- The edge an open leaves behind: the funding total less the three debits it is charged.
def ofOpen (total : UInt64) (parties : Parties) (terms : TermsHash)
    (debits : UInt64 × UInt64 × UInt64 × Fees) (timeout : BlockHeight) (allowed : CloseKindSet) :
    Except InvalidOpenReason Edge := do
  let (openFee, lifetimeFee, reserve, closeFees) := debits
  let value ← okOr (do
    let afterOpenFee ← checkedSub total openFee
    let afterFee ← checkedSub afterOpenFee lifetimeFee
    checkedSub afterFee reserve) .fundingInsufficient
  pure ⟨value,reserve,closeFees,timeout,parties,terms,allowed⟩

def values (edge : Edge) : EdgeValues := ⟨edge.value,edge.reserve,edge.closeFees⟩

def closeValue (edge : Edge) (closeCost : Cost) : Option UInt64 := edge.values.closeValue closeCost

def total (coins : List (CoinId × Coin)) : Option UInt64 := checkedSum (fun entry => entry.2.value) coins

-- Payouts must distribute exactly what the close kind leaves; the total is returned.
def closes (edge : Edge) (coins : List (CoinId × Coin)) (closeCost : Cost) :
    Except InvalidCloseReason UInt64 := do
  let expected ← okOr (edge.closeValue closeCost) .reserveTooSmall
  match total coins with
  | none => .error .payoutOverflow
  | some sum => if sum ≠ expected then .error .valueMismatch else .ok expected

def allows (edge : Edge) (kind : CloseKind) : Bool := edge.allowed.contains kind

def locked (edge : Edge) : Nat := edge.value.toNat + edge.reserve.toNat

theorem ofOpen_exact {total : UInt64} {parties : Parties} {terms : TermsHash} {debits : UInt64 × UInt64 × UInt64 × Fees}
    {timeout : BlockHeight} {allowed : CloseKindSet} {edge : Edge} :
    ofOpen total parties terms debits timeout allowed = .ok edge ↔ (total.toNat = debits.1.toNat + debits.2.1.toNat + edge.locked ∧
        edge.reserve = debits.2.2.1 ∧ edge.closeFees = debits.2.2.2) ∧
      edge.timeout = timeout ∧ edge.parties = parties ∧ edge.terms = terms ∧ edge.allowed = allowed := by
  obtain ⟨openFee,lifetimeFee,reserve,fees⟩ := debits
  obtain ⟨value,held,closeFees,expiry,named,hash,kinds⟩ := edge
  simp only [ofOpen,bind_ok,okOr_ok,pure_ok,Option.bind_eq_bind,Option.bind_eq_some_iff,checkedSub_exact,Edge.mk.injEq,locked]
  constructor
  · rintro ⟨left,⟨afterOpen,paidOpen,afterFee,paidFee,rest⟩,rfl,rfl,rfl,rfl,rfl,rfl,rfl⟩
    exact ⟨⟨by omega,rfl,rfl⟩,rfl,rfl,rfl,rfl⟩
  · rintro ⟨⟨balanced,rfl,rfl⟩,rfl,rfl,rfl,rfl⟩
    have bound := total.toNat_lt
    obtain ⟨afterOpen,paidOpen⟩ := exists_word (show total.toNat - openFee.toNat < 2^64 by omega)
    obtain ⟨afterFee,paidFee⟩ := exists_word (show afterOpen.toNat - lifetimeFee.toNat < 2^64 by omega)
    exact ⟨value,⟨afterOpen,by omega,afterFee,by omega,by omega⟩,
      rfl,rfl,rfl,rfl,rfl,rfl,rfl⟩

theorem closes_exact {edge : Edge} :
    edge.closes coins cost = .ok sum ↔ edge.closeValue cost = some sum ∧ Words.total (fun entry => entry.2.value) coins = sum.toNat := by
  simp only [closes,bind_ok,okOr_ok,← checkedSum_exact,total]
  constructor
  · rintro ⟨expected,priced,checked⟩
    split at checked
    · cases checked
    · rename_i paid summed
      split at checked
      · cases checked
      · rename_i same
        cases checked
        exact ⟨priced,by rw [summed,Decidable.not_not.mp same]⟩
  · rintro ⟨priced,summed⟩
    exact ⟨sum,priced,by simp [summed]⟩

end Edge

instance : Encode Edge where
  maxEncodedSize := envelopeSize + 2 * 8 + maxEncodedSize Fees + maxEncodedSize BlockHeight +
    maxEncodedSize Parties + maxEncodedSize TermsHash + maxEncodedSize CloseKindSet
  encodedSize edge := envelopeSize + 2 * 8 + maxEncodedSize Fees + maxEncodedSize BlockHeight +
    maxEncodedSize Parties + maxEncodedSize TermsHash + maxEncodedSize CloseKindSet - maxEncodedSize Parties + encodedSize edge.parties
  encode edge := encodeEnvelope Tag.edge ++ (encode edge.value ++ (encode edge.reserve ++
    (encode edge.closeFees ++ (encode edge.timeout ++ (encode edge.parties ++ (encode edge.terms ++ encode edge.allowed))))))

instance : Decode Edge where
  decode := decodeComposite Tag.edge do
    let value ← decodeField
    let reserve ← decodeField
    let closeFees ← decodeField
    let timeout ← decodeField
    let parties ← decodeField
    let terms ← decodeField
    let allowed ← decodeField
    pure ⟨value,reserve,closeFees,timeout,parties,terms,allowed⟩

theorem Edge.encode_length (edge : Edge) : (encode edge).length = encodedSize edge := by
  change List.length (_ ++ (_ ++ (_ ++ (_ ++ (_ ++ (_ ++ (_ ++ [_]))))))) = _ - _ + _
  simp only [List.length_append,encodeEnvelope_length,Lawful.size,FixedSize.size,FixedSize.max,List.length_singleton]
  omega

theorem Edge.encodedSize_le (edge : Edge) : encodedSize edge ≤ maxEncodedSize Edge := by
  have parties := Lawful.bound edge.parties
  change _ + _ + _ + _ + maxEncodedSize Parties + _ + _ - maxEncodedSize Parties + _ ≤
    _ + _ + _ + _ + maxEncodedSize Parties + _ + _
  omega

theorem Edge.exact : Exact (fun edge : Edge => edge.allowed.Permitted) encode decode :=
  composite_exact (parses_congr (parses_read fun _ => parses_read fun _ => parses_read fun _ =>
    parses_read fun _ => parses_read fun _ => parses_read fun _ => parses_bind
    (parses_field_of CloseKindSet.exact) fun _ => parses_pure) (by
      rintro ⟨value,reserve,fees,timeout,parties,terms,allowed⟩ bytes
      simp))

-- An initial coin seed; seeds are undelegated.
structure Genesis where
  id : CoinId
  coin : Coin
  deriving DecidableEq

def Genesis.ofCoin (id : CoinId) (owner : Key) (value : UInt64) : Genesis := ⟨id,⟨owner,none,value⟩⟩

end Hellas.Kernel
