import TronWallet.Model.NetworkThread
import TronWallet.Model.TransactionManager

/-!
# The settings of the nodes

The form in which the addresses of the two nodes are entered, the file it saves them to and
the reading of that file when the wallet starts.  The texts are those of the four fields in
UTF-8.

`regex_search` is modelled by what can follow a match: `afterIp s` lists what remains of `s`
after each way to match the pattern at its beginning, and a search succeeds when some tail
of the text has a match.
-/

set_option autoImplicit false

namespace TronWallet.Model

open TronWallet.Lib

/-! ## Paths of a dictionary -/

/-- `Get` along the keys a path expands to. SOURCE: base/values.cc:476-497 -/
def Dictionary.getPath : List Bytes → Dictionary → Option Value
  | [], _ => none
  | [key], d => Dictionary.find d key
  | key :: rest, d => (Dictionary.getDictionary d key).bind fun child => getPath rest child

/-- `DictionaryValue::GetString`. SOURCE: base/values.cc:532-539 -/
def Dictionary.getStringAt (path : Bytes) (d : Dictionary) : Option Bytes :=
  match Dictionary.getPath (Dictionary.splitPath path) d with
  | some (.string v) => some v
  | _ => none

/-! ## The pattern of an address -/

/-- `\d`. -/
def isDigit (c : UInt8) : Bool := 48 ≤ c ∧ c ≤ 57

/-- What follows one, two or three digits: `\d{1,3}`. -/
def afterDigits (s : Bytes) : List Bytes :=
  [1, 2, 3].filterMap fun n =>
    if n ≤ s.length ∧ (s.take n).all isDigit then some (s.drop n) else none

/-- What follows a dot and one, two or three digits. -/
def afterDotDigits : Bytes → List Bytes
  | 46 :: rest => afterDigits rest
  | _ => []

/-- What follows the pattern. SOURCE: wallet/gui/connection_form.cpp:55 -/
def afterIp (s : Bytes) : List Bytes :=
  (((afterDigits s).flatMap afterDotDigits).flatMap afterDotDigits).flatMap afterDotDigits

/-- `std::regex_search` for the pattern. -/
def regexSearch (address : Bytes) : Bool := address.tails.any fun s => !(afterIp s).isEmpty

/-! ## The form -/

/-- A node of the settings. SOURCE: wallet/gui/connection_form.cpp:110-116 -/
def createNode (ip port : Bytes) : Dictionary :=
  Dictionary.setString [112, 111, 114, 116] port
    (Dictionary.setString [97, 100, 100, 114, 101, 115, 115] ip [])

/-- The text `full`. -/
def fullKey : Bytes := [102, 117, 108, 108]

/-- The text `solidity`. -/
def solidityKey : Bytes := [115, 111, 108, 105, 100, 105, 116, 121]

/-- The dictionary of the settings. SOURCE: wallet/gui/connection_form.cpp:109-119 -/
def configDetails (full_address full_port solidity_address solidity_port : Bytes) : Dictionary :=
  Dictionary.setPath (.dictionary (createNode solidity_address solidity_port))
    (Dictionary.splitPath solidityKey)
    (Dictionary.setPath (.dictionary (createNode full_address full_port))
      (Dictionary.splitPath fullKey) [])

/-- An address and a port with a colon between them. -/
def endpoint (address port : Bytes) : Bytes := address ++ [58] ++ port

/-- What the form does in the end: a message box, or the call of `ReSetSub`. -/
inductive FormResult where
  | message (text : String)
  | reSetSub (full_address_port solidity_address_port : Bytes)
deriving DecidableEq

variable (F : FileFormats)

namespace ConnectionForm

/-- The message box for the two fields of a node, if they are refused.
SOURCE: wallet/gui/connection_form.cpp:59-77 -/
def checkIPAddress (address port : Bytes) : Option String :=
  if address.isEmpty ≠ port.isEmpty then some "IP address or port can't empty!"
  else if address ≠ [] ∧ regexSearch address = false then some "IP address format error!"
  else none

/-- Saves the settings; `none` where the directory of the settings cannot be made and it
throws.  `path` is `ConfigDir() + "/config.json"`.
SOURCE: wallet/gui/connection_form.cpp:103-128 -/
def save (disk : Disk) (path : Bytes)
    (full_address full_port solidity_address solidity_port : Bytes) (files : Files) :
    Option (FormResult × Files) :=
  if disk.makesDirectories then
    let r := serializeFile F disk path
      (configDetails full_address full_port solidity_address solidity_port) files
    some (if r.1 then .reSetSub (endpoint full_address full_port)
      (endpoint solidity_address solidity_port) else .message "Save failed!", r.2)
  else none

/-- The button `Save and connect`. SOURCE: wallet/gui/connection_form.cpp:46-101 -/
def onSave (disk : Disk) (path : Bytes)
    (full_address full_port solidity_address solidity_port : Bytes) (files : Files) :
    Option (FormResult × Files) :=
  match checkIPAddress full_address full_port with
  | some text => some (.message text, files)
  | none =>
    match checkIPAddress solidity_address solidity_port with
    | some text => some (.message text, files)
    | none => save F disk path full_address full_port solidity_address solidity_port files

end ConnectionForm

/-! ## The next start -/

namespace NetworkConfig

/-- The endpoint of a node in the dictionary of the settings, empty where there is none.
SOURCE: wallet/core/network_thread.cpp:40-49 -/
def nodeEndpoint (root : Dictionary) (node_name : Bytes) : Bytes :=
  match Dictionary.getStringAt (node_name ++ [46, 97, 100, 100, 114, 101, 115, 115]) root,
      Dictionary.getStringAt (node_name ++ [46, 112, 111, 114, 116]) root with
  | some address, some port => if address ≠ [] ∧ port ≠ [] then endpoint address port else []
  | _, _ => []

/-- The text `47.254.16.55:50051`. SOURCE: wallet/core/network_thread.h:106 -/
def initialFull : Bytes :=
  [52, 55, 46, 50, 53, 52, 46, 49, 54, 46, 53, 53, 58, 53, 48, 48, 53, 49]

/-- The text `47.254.39.153:50051`. SOURCE: wallet/core/network_thread.h:107 -/
def initialSolidity : Bytes :=
  [52, 55, 46, 50, 53, 52, 46, 51, 57, 46, 49, 53, 51, 58, 53, 48, 48, 53, 49]

/-- The endpoints after `Load`, from those before it.
SOURCE: wallet/core/network_thread.cpp:28-60 -/
def load (files : Files) (path full_address_port_ solidity_address_port_ : Bytes) :
    Bytes × Bytes :=
  match deserializeFile F files path with
  | some (.dictionary root) =>
    let full := nodeEndpoint root fullKey
    let solidity := nodeEndpoint root solidityKey
    (if full ≠ [] then full else full_address_port_,
      if solidity ≠ [] then solidity else solidity_address_port_)
  | _ => (full_address_port_, solidity_address_port_)

end NetworkConfig

end TronWallet.Model
