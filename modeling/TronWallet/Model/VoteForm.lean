import TronWallet.Model.AccountForms
import TronWallet.Model.StringNumber

/-!
# The vote form

`CVoteForm`: the list of witnesses with a cell for the votes in each row, the contract made
from the table, and what the contract is checked for.  The first item of the list is its
head; `witness_` is the rows below it, each with the texts of its controls.
-/

set_option autoImplicit false

namespace TronWallet.Model

open TronWallet.Lib TronWallet.Lib.FixedWidth

/-- The fields of a witness that are read.
SOURCE: grpc_proto/tronprotocol/core/Tron.proto:93-103 -/
structure Witness where
  address : Bytes := []
  voteCount : ℤ := 0
  url : Bytes := []

/-- A row of the list; `myvotes` is the text of the cell in which votes are typed.
SOURCE: wallet/gui/vote_form.cpp:17-23 -/
structure WitnessItemData where
  address : Wide := []
  website : Wide := []
  votes : Wide := []
  myvotes : Wide := []
deriving DecidableEq

/-- SOURCE: wallet/gui/vote_form.h:49-55 -/
structure VoteForm where
  offline_ : Bool := false
  address_ : Bytes := []
  witness_ : List WitnessItemData := []
  address_url_ : StringMap := SortedMap.empty

namespace VoteForm

variable (P : Platform) (U : Unicode)

/-- The row of a witness. SOURCE: wallet/gui/vote_form.cpp:149-153 -/
def itemData (w : Witness) : WitnessItemData where
  address := utf8ToWide U.toWide (addressEncodeBase58Check P w.address)
  website := utf8ToWide U.toWide w.url
  votes := toWstring w.voteCount

/-- SOURCE: wallet/gui/vote_form.cpp:140-158 -/
def updateWitnessList (s : VoteForm) (witness_list : List Witness) : VoteForm :=
  { s with witness_ := witness_list.map (itemData P U) }

/-- The table after a text has been typed into each of the cells. -/
def typeVotes (s : VoteForm) (cells : ℕ → Wide) : VoteForm :=
  { s with witness_ := s.witness_.mapIdx fun i row => { row with myvotes := cells i } }

/-- What the loop does with a row: the votes, and the names of the addresses voted for.
SOURCE: wallet/gui/vote_form.cpp:212-227 -/
def addVote (acc : List Vote × StringMap) (row : WitnessItemData) : List Vote × StringMap :=
  if row.myvotes = [] then acc
  else
    match stringToInt64 (wideToUTF8 U row.myvotes) with
    | (true, vote_count) =>
      let utf8_vote_address := wideToUTF8 U row.address
      (acc.1 ++ [⟨(addressDecodeBase58Check P utf8_vote_address).2, vote_count⟩],
        acc.2.emplace utf8_vote_address (wideToUTF8 U row.website))
    | (false, _) => acc

/-- The address in whose name is voted, if there is one.
SOURCE: wallet/gui/vote_form.cpp:193-205 -/
def owner (w : Wallet) (s : VoteForm) : Option Bytes :=
  if s.offline_ = false then
    if w.checkLogin = false then none else some w.Address
  else some s.address_

/-- The contract of the table, if there is an owner, and the form afterwards.
SOURCE: wallet/gui/vote_form.cpp:190-230 -/
def createVoteContract (w : Wallet) (s : VoteForm) : Option VoteWitnessContract × VoteForm :=
  match s.owner w with
  | none => (none, s)
  | some address =>
    let (votes, address_url) := s.witness_.foldl (addVote P U) ([], s.address_url_)
    (some { owner_address := address, votes := votes }, { s with address_url_ := address_url })

variable (D : FormDoubles)

/-- The loop over the counts with what they add up to in an `int`, `none` at one that is
negative.
SOURCE: wallet/gui/vote_form.cpp:281-292 -/
def sumLoop : List Vote → ℤ → Option ℤ
  | [], sum => some sum
  | vote :: rest, sum =>
    if vote.vote_count < 0 then none
    else sumLoop rest (wrap 32 (wrap 64 (sum + vote.vote_count)))

/-- What is wrong with a contract, empty if nothing is.
SOURCE: wallet/gui/vote_form.cpp:270-306 -/
def validateContract (contract : VoteWitnessContract) (tron_power : ℤ) : Wide :=
  if contract.votes.length = 0 then ascii "VoteNumber must more than 0"
  else
    match sumLoop contract.votes 0 with
    | none => ascii "vote count must be greater than 0"
    | some sum =>
      if tron_power < toDrop D.toDoubles (D.ofInt sum) then
        ascii "The total number of votes " ++ (widen (D.printf6 (toTrx D.toDoubles sum)) ++
          (ascii " is greater than the tronPower " ++
            widen (D.printf6 (toTrx D.toDoubles tron_power))))
      else []

/-- The callback of the button with the account: a message box, or the contract the node is
asked to make a transaction of.
SOURCE: wallet/gui/vote_form.cpp:316-331 -/
def onAccount (contract : VoteWitnessContract) (a : FormAccount) :
    Except Wide VoteWitnessContract :=
  if a.address = [] then .error (accountNotExists U P contract.owner_address)
  else
    let err := validateContract D contract (calcTronPower a)
    if err ≠ [] then .error err else .ok contract

end VoteForm

end TronWallet.Model
