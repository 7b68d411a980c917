import TronWallet.Lib.SortedMap
import TronWallet.Lib.UnorderedMap
import TronWallet.Model.Transaction

/-!
# Files of transactions and votes

`wallet/core/transaction_manager.cpp`.  A transaction is kept as the hexadecimal text of its
serialization under the key `hex` of a JSON dictionary; a vote adds the dictionary `map` of
the names of the addresses voted for.  The name of the file is the first seven characters
of that text.

The serialization and the two directions of the JSON library are parameters.  Whether the
directory can be made and the file opened is an input of each call; what is written to an
open file arrives there.
-/

set_option autoImplicit false

namespace TronWallet.Model

open TronWallet.Lib

/-- The libraries behind the files. -/
structure FileFormats where
  /-- `Transaction::SerializeAsString`. -/
  serializeAsString : Transaction → Bytes
  /-- `Transaction::ParseFromArray`, `none` where it returns false. -/
  parseFromArray : Bytes → Option Transaction
  /-- `JSONStringValueSerializer::Serialize` with `set_pretty_print(true)`. -/
  jsonWrite : Value → Bytes
  /-- `JSONStringValueDeserializer::Deserialize`, `none` where it returns null. -/
  jsonRead : Bytes → Option Value

/-- A map from strings to strings. -/
abbrev StringMap := SortedMap Bytes Bytes

instance bytesTrans : IsTrans Bytes (· < ·) := inferInstance

instance bytesTrichotomous : Std.Trichotomous fun a b : Bytes => a < b := inferInstance

/-- SOURCE: wallet/core/transaction_manager.h:20-24 -/
structure VoteData where
  transaction : Option Transaction := none
  address_url : StringMap := SortedMap.empty
deriving DecidableEq

/-- The files, by path. -/
abbrev Files := UnorderedMap Bytes Bytes

/-- What the operating system answers to a call that saves. -/
structure Disk where
  /-- `create_directories` does not throw. -/
  makesDirectories : Bool
  /-- The stream is open. -/
  opensFile : Bool
deriving DecidableEq

/-- The text `hex`. -/
def hexKey : Bytes := [104, 101, 120]

/-- The text `map`. -/
def mapKey : Bytes := [109, 97, 112]

/-- `DictionaryValue::GetString` for a key without dots. -/
def Dictionary.getString (d : Dictionary) (key : Bytes) : Option Bytes :=
  match d.find key with
  | some (.string v) => some v
  | _ => none

variable (F : FileFormats)

/-- The path of a file, from the directory and the text it holds under `hex`.
SOURCE: wallet/core/transaction_manager.cpp:32, 69 -/
def savePath (dir hex : Bytes) : Bytes := dir ++ [92] ++ hex.take 7 ++ [46, 106, 115, 111, 110]

/-- `JSONFileValueSerializer::Serialize`.
SOURCE: base/json_file_value_serializer.cc:28-54 -/
def serializeFile (disk : Disk) (path : Bytes) (root : Dictionary) (files : Files) : Bool × Files :=
  if disk.opensFile then (true, files.insert path (F.jsonWrite (.dictionary root)))
  else (false, files)

/-- `JSONFileValueDeserializer::Deserialize`.
SOURCE: base/json_file_value_serializer.cc:97-114 -/
def deserializeFile (files : Files) (path : Bytes) : Option Value :=
  (files.lookup path).bind F.jsonRead

/-- The dictionary of a transaction. SOURCE: wallet/core/transaction_manager.cpp:29-31 -/
def transactionDetails (transaction : Transaction) : Dictionary :=
  Dictionary.setString hexKey (toHex (F.serializeAsString transaction)) []

/-- Saves a transaction; `none` where the directories cannot be made and it throws.
SOURCE: wallet/core/transaction_manager.cpp:26-35 -/
def saveTransaction (disk : Disk) (dir : Bytes) (transaction : Transaction) (files : Files) :
    Option (Bool × Files) :=
  if disk.makesDirectories then
    some (serializeFile F disk (savePath dir (toHex (F.serializeAsString transaction)))
      (transactionDetails F transaction) files)
  else none

/-- Loads a transaction. SOURCE: wallet/core/transaction_manager.cpp:37-57 -/
def loadTransaction (files : Files) (path : Bytes) : Option Transaction :=
  match deserializeFile F files path with
  | some (.dictionary root) =>
    (Dictionary.getString root hexKey).bind fun hex => F.parseFromArray (fromHex hex)
  | _ => none

/-- The dictionary of the names of a vote.
SOURCE: wallet/core/transaction_manager.cpp:65-67 -/
def addressUrlDictionary (address_url : StringMap) : Dictionary :=
  address_url.entries.foldl (fun map p => Dictionary.setString p.1 p.2 map) []

/-- The dictionary of a vote. SOURCE: wallet/core/transaction_manager.cpp:62-68 -/
def voteDetails (transaction : Transaction) (address_url : StringMap) : Dictionary :=
  Dictionary.setPath (.dictionary (addressUrlDictionary address_url))
    (Dictionary.splitPath mapKey) (transactionDetails F transaction)

/-- Saves a vote; `none` where the directories cannot be made and where there is no
transaction to serialize.
SOURCE: wallet/core/transaction_manager.cpp:59-72 -/
def saveVote (disk : Disk) (dir : Bytes) (vote_data : VoteData) (files : Files) :
    Option (Bool × Files) :=
  if disk.makesDirectories then
    vote_data.transaction.map fun transaction =>
      serializeFile F disk (savePath dir (toHex (F.serializeAsString transaction)))
        (voteDetails F transaction vote_data.address_url) files
  else none

/-- The strings of a dictionary, emplaced one after the other.
SOURCE: wallet/core/transaction_manager.cpp:96-101 -/
def addressUrl (map : Dictionary) : StringMap :=
  map.foldl (fun address_url p => match p.2 with
    | .string v => address_url.emplace p.1 v
    | _ => address_url) SortedMap.empty

/-- Loads a vote; `none` where `map` is iterated without being a dictionary.
SOURCE: wallet/core/transaction_manager.cpp:74-107 -/
def loadVote (files : Files) (path : Bytes) : Option VoteData :=
  match deserializeFile F files path with
  | some (.dictionary root) =>
    match Dictionary.getString root hexKey with
    | none => some {}
    | some hex =>
      match F.parseFromArray (fromHex hex) with
      | none => some {}
      | some transaction =>
        match Dictionary.find root mapKey with
        | none => some { transaction := some transaction }
        | some (.dictionary map) =>
          some { transaction := some transaction, address_url := addressUrl map }
        | some _ => none
  | _ => some {}

end TronWallet.Model
