import BlockchainMessaging.Values
import BlockchainMessaging.Utf8
import BlockchainMessaging.Merkle
import BlockchainMessaging.Block
import BlockchainMessaging.Blockchain
import BlockchainMessaging.LedgerRuns
import BlockchainMessaging.Mining
import BlockchainMessaging.Validation
import BlockchainMessaging.Persistence
import BlockchainMessaging.Message
import BlockchainMessaging.Engine
import BlockchainMessaging.Inbound
import BlockchainMessaging.EngineRuns
import BlockchainMessaging.EndToEnd
