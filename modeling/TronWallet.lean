import TronWallet.Lib.GuardedRun
import TronWallet.Lib.Radix
import TronWallet.Lib.FixedWidth
import TronWallet.Lib.Rounding
import TronWallet.Lib.SortedMap
import TronWallet.Lib.UnorderedMap
import TronWallet.Lib.StreamCode
import TronWallet.Model.Platform
import TronWallet.Model.Base58
import TronWallet.Model.Rlp
import TronWallet.Model.SecretStore
import TronWallet.Model.KeyManager
import TronWallet.Model.AccountManager
import TronWallet.Model.ColdFileWrite
import TronWallet.Model.Transaction
import TronWallet.Model.TransactionManager
import TronWallet.Model.NetworkThread
import TronWallet.Model.ConnectionForm
import TronWallet.Model.Number
import TronWallet.Model.SendForm
import TronWallet.Model.InfoForms
import TronWallet.Model.Recovery
import TronWallet.Model.StringNumber
import TronWallet.Model.UtfConversions
import TronWallet.Model.JsonWriter
import TronWallet.Model.JsonParser
import TronWallet.Model.AccountForms
import TronWallet.Model.VoteForm
import TronWallet.Model.FreezeForm
import TronWallet.Model.TokenForms
import TronWallet.Model.LoadedForm
import TronWallet.Reference.Platform
import TronWallet.Reference.Formats
import TronWallet.Reference.Runs
import TronWallet.Reference.NetworkRuns
import TronWallet.Reference.Contracts
import TronWallet.Reference.SendRuns
import TronWallet.Reference.Rationals
import TronWallet.Analysis.AccountRuns
import TronWallet.Analysis.Base58
import TronWallet.Analysis.ColdFiles
import TronWallet.Analysis.NetworkSteps
import TronWallet.Analysis.NetworkContexts
import TronWallet.Analysis.Texts
import TronWallet.Analysis.Amounts
import TronWallet.Analysis.Utf8
import TronWallet.Analysis.JsonLexing
import TronWallet.Analysis.JsonNumbers
import TronWallet.Analysis.JsonDialect
import TronWallet.Analysis.JsonParsing
import TronWallet.Analysis.JsonValues
import TronWallet.Analysis.JsonWriting
import TronWallet.Analysis.JsonRoundTrip
import TronWallet.Analysis.RlpTrees
import TronWallet.Analysis.Keccak
import TronWallet.Analysis.Sha256
import TronWallet.Theorems.ColdPairing
import TronWallet.Theorems.ColdKeys
import TronWallet.Theorems.ColdIsolation
import TronWallet.Theorems.Keystream
import TronWallet.Theorems.LoginSound
import TronWallet.Theorems.KeysFileReadable
import TronWallet.Theorems.SigningKey
import TronWallet.Theorems.AccountNames
import TronWallet.Theorems.LogoutAccess
import TronWallet.Theorems.KeysFileRoundTrip
import TronWallet.Theorems.AddressCodec
import TronWallet.Theorems.SavedTransactions
import TronWallet.Theorems.SignedAsShown
import TronWallet.Theorems.SignsTheAnswer
import TronWallet.Theorems.NewestRequest
import TronWallet.Theorems.OneLiveRequest
import TronWallet.Theorems.NoDuplicateTask
import TronWallet.Theorems.GenuineReplies
import TronWallet.Theorems.SenderBalances
import TronWallet.Theorems.NodeSettings
import TronWallet.Theorems.EnteredAmounts
import TronWallet.Theorems.VerifiedSignatures
import TronWallet.Theorems.ConfirmedAmounts
import TronWallet.Theorems.VoteValidation
import TronWallet.Theorems.VoteTable
import TronWallet.Theorems.FrozenAmounts
import TronWallet.Theorems.ParticipationPrice
import TronWallet.Theorems.IssuedTerms
import TronWallet.Theorems.UsableKeys
import TronWallet.Theorems.TokenUpdates
import TronWallet.Theorems.AcceptedAddresses
import TronWallet.Theorems.LoadedFiles
import TronWallet.Theorems.DetailControl
import TronWallet.Theorems.ColdFileWrites
import TronWallet.Theorems.FailedLoads
import TronWallet.Theorems.InverseTables
import TronWallet.Theorems.JsonFiles
import TronWallet.Theorems.WideTexts
import TronWallet.Theorems.ColdTexts
import TronWallet.Theorems.SavedVotes
import TronWallet.Theorems.RlpTexts
import TronWallet.Theorems.KeccakHash
import TronWallet.Theorems.KeyDerivation
