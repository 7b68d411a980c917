import TronWallet.Model.TransactionManager

/-!
# The wire format and JSON texts of files

The protobuf wire format of a transaction and the JSON texts of the wallet's files, written
out far enough to run on given inputs.  A message is the list of its fields, each a tag and
a number or a length-delimited text; absent fields and fields that hold their default are
not written.  The JSON texts are the ones of pretty printing, and hold strings and
dictionaries.
-/

set_option autoImplicit false

namespace TronWallet.Reference

open TronWallet.Lib TronWallet.Model

/-! ## The wire format -/

/-- A number in groups of seven bits, at most ten of them. -/
def varint : ℕ → ℕ → Bytes
  | 0, _ => []
  | fuel + 1, n =>
    if n < 128 then [UInt8.ofNat n] else UInt8.ofNat (n % 128 + 128) :: varint fuel (n / 128)

/-- A number field. -/
def numberField (field : ℕ) (n : ℤ) : Bytes :=
  if n = 0 then [] else varint 10 (field * 8) ++ varint 10 (n % 2 ^ 64).toNat

/-- A length-delimited field. -/
def lengthField (field : ℕ) (b : Bytes) : Bytes :=
  varint 10 (field * 8 + 2) ++ varint 10 b.length ++ b

/-- A text field. -/
def bytesField (field : ℕ) (b : Bytes) : Bytes := if b = [] then [] else lengthField field b

/-- What a field holds. -/
inductive Wire where
  | number (n : ℕ)
  | text (b : Bytes)

/-- A number and what follows it. -/
def readVarint : Bytes → Option (ℕ × Bytes)
  | [] => none
  | c :: cs =>
    if c < 128 then some (c.toNat, cs)
    else (readVarint cs).map fun r => (c.toNat - 128 + 128 * r.1, r.2)

/-- The fields of a message. -/
def readFields : ℕ → Bytes → Option (List (ℕ × Wire))
  | _, [] => some []
  | 0, _ => none
  | fuel + 1, b =>
    (readVarint b).bind fun tag =>
      (readVarint tag.2).bind fun head =>
        if tag.1 % 8 = 0 then
          (readFields fuel head.2).map ((tag.1 / 8, .number head.1) :: ·)
        else if tag.1 % 8 = 2 ∧ head.1 ≤ head.2.length then
          (readFields fuel (head.2.drop head.1)).map
            ((tag.1 / 8, .text (head.2.take head.1)) :: ·)
        else none

/-- All texts under a field. -/
def texts (fields : List (ℕ × Wire)) (field : ℕ) : List Bytes :=
  fields.filterMap fun f => match f.2 with
    | .text b => if f.1 = field then some b else none
    | .number _ => none

/-- The last text under a field. -/
def text (fields : List (ℕ × Wire)) (field : ℕ) : Bytes := ((texts fields field).getLast?).getD []

/-- The last number under a field. -/
def number (fields : List (ℕ × Wire)) (field : ℕ) : ℤ :=
  let n : ℕ := ((fields.filterMap fun f => match f.2 with
    | .number n => if f.1 = field then some n else none
    | .text _ => none).getLast?).getD 0 % 2 ^ 64
  if n < 2 ^ 63 then (n : ℤ) else (n : ℤ) - 2 ^ 64

/-! ## The messages of a transaction -/

/-- The number of a contract type. -/
def typeNumber : ContractType → ℤ
  | .AccountCreateContract => 0
  | .TransferContract => 1
  | .TransferAssetContract => 2
  | .VoteAssetContract => 3
  | .VoteWitnessContract => 4
  | .WitnessCreateContract => 5
  | .AssetIssueContract => 6
  | .DeployContract => 7
  | .WitnessUpdateContract => 8
  | .ParticipateAssetIssueContract => 9
  | .AccountUpdateContract => 10
  | .FreezeBalanceContract => 11
  | .UnfreezeBalanceContract => 12
  | .WithdrawBalanceContract => 13
  | .UnfreezeAssetContract => 14
  | .UpdateAssetContract => 15
  | .CustomContract => 20
  | .unknown n => n

/-- The contract type of a number. -/
def numberType (n : ℤ) : ContractType :=
  match n with
  | 0 => .AccountCreateContract
  | 1 => .TransferContract
  | 2 => .TransferAssetContract
  | 3 => .VoteAssetContract
  | 4 => .VoteWitnessContract
  | 5 => .WitnessCreateContract
  | 6 => .AssetIssueContract
  | 7 => .DeployContract
  | 8 => .WitnessUpdateContract
  | 9 => .ParticipateAssetIssueContract
  | 10 => .AccountUpdateContract
  | 11 => .FreezeBalanceContract
  | 12 => .UnfreezeBalanceContract
  | 13 => .WithdrawBalanceContract
  | 14 => .UnfreezeAssetContract
  | 15 => .UpdateAssetContract
  | 20 => .CustomContract
  | n => .unknown n

/-- `google.protobuf.Any`. -/
def writeAny (m : AnyMessage) : Bytes := bytesField 1 m.type_url ++ bytesField 2 m.value

/-- SOURCE: grpc_proto/tronprotocol/core/Tron.proto:156-159 -/
def writeContract (c : Contract) : Bytes :=
  numberField 1 (typeNumber c.type) ++ lengthField 2 (writeAny c.parameter) ++
    bytesField 3 c.provider ++ bytesField 4 c.ContractName

/-- SOURCE: grpc_proto/tronprotocol/core/Tron.proto:82-85 -/
def writeAcuthrity (a : Acuthrity) : Bytes :=
  (match a.account with
    | some i => lengthField 1 (bytesField 1 i.name ++ bytesField 2 i.address)
    | none => []) ++ bytesField 2 a.permission_name

/-- SOURCE: grpc_proto/tronprotocol/core/Tron.proto:172-185 -/
def writeRaw (r : RawData) : Bytes :=
  bytesField 1 r.ref_block_bytes ++ numberField 3 r.ref_block_num ++
    bytesField 4 r.ref_block_hash ++ numberField 8 r.expiration ++
    (r.auths.map fun a => lengthField 9 (writeAcuthrity a)).flatten ++ bytesField 10 r.data ++
    (r.contract.map fun c => lengthField 11 (writeContract c)).flatten ++
    bytesField 12 r.scripts ++ numberField 14 r.timestamp

/-- SOURCE: grpc_proto/tronprotocol/core/Tron.proto:135-191 -/
def writeTransaction (t : Transaction) : Bytes :=
  lengthField 1 (writeRaw t.raw_data) ++ (t.signature.map fun s => lengthField 2 s).flatten ++
    (t.ret.map fun r => lengthField 5 (numberField 1 r.fee ++ numberField 2 r.ret)).flatten

/-- The fields of a message that is shorter than `b.length` fields. -/
def fieldsOf (b : Bytes) : Option (List (ℕ × Wire)) := readFields b.length b

def readAny (b : Bytes) : Option AnyMessage :=
  (fieldsOf b).map fun f => { type_url := text f 1, value := text f 2 }

def readContract (b : Bytes) : Option Contract :=
  (fieldsOf b).bind fun f => (readAny (text f 2)).map fun parameter =>
    { type := numberType (number f 1), parameter, provider := text f 3, ContractName := text f 4 }

def readAcuthrity (b : Bytes) : Option Acuthrity :=
  (fieldsOf b).bind fun f => ((texts f 1).mapM fieldsOf).map fun accounts =>
    { account := accounts.getLast?.map fun i => { name := text i 1, address := text i 2 }
      permission_name := text f 2 }

def readRaw (b : Bytes) : Option RawData :=
  (fieldsOf b).bind fun f => ((texts f 9).mapM readAcuthrity).bind fun auths =>
    ((texts f 11).mapM readContract).map fun contract =>
      { ref_block_bytes := text f 1, ref_block_num := number f 3, ref_block_hash := text f 4
        expiration := number f 8, auths, data := text f 10, contract, scripts := text f 12
        timestamp := number f 14 }

def readTransaction (b : Bytes) : Option Transaction :=
  (fieldsOf b).bind fun f => (readRaw (text f 1)).bind fun raw_data =>
    ((texts f 5).mapM fieldsOf).map fun rets =>
      { raw_data, signature := texts f 2
        ret := rets.map fun r => { fee := number r 1, ret := number r 2 } }

/-! ## JSON texts -/

/-- A string with its quotation marks. -/
def quoted (s : Bytes) : Bytes :=
  34 :: (s.map fun c => if c = 34 ∨ c = 92 then [92, c] else [c]).flatten ++ [34]

/-- A dictionary at an indentation, from the texts of its values. -/
def prettyDictionary (depth : ℕ) (members : List (Bytes × Bytes)) : Bytes :=
  [123, 13, 10] ++ ([44, 13, 10] : Bytes).intercalate (members.map fun e =>
    List.replicate (3 * (depth + 1)) 32 ++ quoted e.1 ++ [58, 32] ++ e.2) ++
    [13, 10] ++ List.replicate (3 * depth) 32 ++ [125]

/-- The text of a string, and of anything else `null`. -/
def stringText : Value → Bytes
  | .string s => quoted s
  | _ => [110, 117, 108, 108]

/-- The text of a string or a dictionary of strings. -/
def memberText : Value → Bytes
  | .dictionary d => prettyDictionary 1 (d.map fun e => (e.1, stringText e.2))
  | v => stringText v

/-- The text of a file. SOURCE: base/json_writer.cc:52-180 -/
def prettyWrite : Value → Bytes
  | .dictionary d => prettyDictionary 0 (d.map fun e => (e.1, memberText e.2)) ++ [13, 10]
  | v => stringText v

/-- What follows white space. -/
def skipSpaces (s : Bytes) : Bytes := s.dropWhile fun c => c = 32 ∨ c = 9 ∨ c = 10 ∨ c = 13

/-- A string up to its closing quotation mark, and what follows. -/
def readString : Bytes → Option (Bytes × Bytes)
  | [] => none
  | 34 :: rest => some ([], rest)
  | 92 :: c :: rest => (readString rest).map fun r => (c :: r.1, r.2)
  | c :: rest => (readString rest).map fun r => (c :: r.1, r.2)

mutual

/-- A value and what follows it. -/
def readValue : ℕ → Bytes → Option (Value × Bytes)
  | 0, _ => none
  | fuel + 1, s =>
    match skipSpaces s with
    | 34 :: rest => (readString rest).map fun r => (.string r.1, r.2)
    | 123 :: rest =>
      match skipSpaces rest with
      | 125 :: rest => some (.dictionary [], rest)
      | rest => (readMembers fuel [] rest).map fun r => (.dictionary r.1, r.2)
    | _ => none

/-- The members of a dictionary up to its closing brace, and what follows. -/
def readMembers : ℕ → Dictionary → Bytes → Option (Dictionary × Bytes)
  | 0, _, _ => none
  | fuel + 1, d, s =>
    match skipSpaces s with
    | 34 :: rest =>
      (readString rest).bind fun key =>
        match skipSpaces key.2 with
        | 58 :: rest =>
          (readValue fuel rest).bind fun value =>
            let d := Dictionary.setWithoutPathExpansion key.1 value.1 d
            match skipSpaces value.2 with
            | 44 :: rest => readMembers fuel d rest
            | 125 :: rest => some (d, rest)
            | _ => none
        | _ => none
    | _ => none

end

/-- The value a text stands for. -/
def prettyRead (s : Bytes) : Option Value :=
  (readValue s.length s).bind fun r => if skipSpaces r.2 = [] then some r.1 else none

/-- The formats of the files. -/
def formats : FileFormats where
  serializeAsString := writeTransaction
  parseFromArray := readTransaction
  jsonWrite := prettyWrite
  jsonRead := prettyRead

end TronWallet.Reference
