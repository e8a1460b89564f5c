import Outscript.Address.Displayed
import Outscript.Address.Network
import Outscript.Address.RoundTrip
import Outscript.Base58
import Outscript.Base64
import Outscript.Bbqr.Transport
import Outscript.Bcur.Binary64
import Outscript.Bcur.Repeat
import Outscript.Bech32.CashAddr
import Outscript.Btc.Canonical
import Outscript.Btc.Commitment
import Outscript.Btc.HashType
import Outscript.Btc.Resign
import Outscript.Btc.Midstate
import Outscript.Btc.ReadBack
import Outscript.Btc.StrictDer
import Outscript.BtcAmount
import Outscript.Cardano.Bundle
import Outscript.Cardano.Derive
import Outscript.Cbor.Accepted
import Outscript.ControlBlock
import Outscript.Crypto.Schnorr
import Outscript.Evm.AbiTypes
import Outscript.Evm.Json
import Outscript.Evm.Sign
import Outscript.Library.ByteString
import Outscript.Library.Cursor
import Outscript.Library.Fallible
import Outscript.Library.LeafListing
import Outscript.Library.SortedMap
import Outscript.Library.StableSort
import Outscript.Psbt.Combine
import Outscript.Psbt.RecordEdit
import Outscript.Psbt.Create
import Outscript.Psbt.Finalized
import Outscript.Psbt.SignKeys
import Outscript.Psbt.SignLeaves
import Outscript.Psbt.SignOrder
import Outscript.Script.Formats
import Outscript.Script.Guess
import Outscript.Solana.LegacyWire
import Outscript.Solana.Sign
import Outscript.Supply
import Outscript.Tron.Transaction
import Outscript.Tron.Tx
import Outscript.TapStack
import Outscript.Taproot
import Outscript.Zcash.Commitment
import Outscript.Zcash.Overflow
