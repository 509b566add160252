import SwapPricing.Arithmetic.Pool
import SwapPricing.Arithmetic.Scaling
import SwapPricing.Arithmetic.Wad
import SwapPricing.Arithmetic.Width
import SwapPricing.Assembly
import SwapPricing.Calendar
import SwapPricing.CommandLine.Arguments
import SwapPricing.CommandLine.Commands
import SwapPricing.CommandLine.Exit
import SwapPricing.CommandLine.Failure
import SwapPricing.CommandLine.Host
import SwapPricing.CommandLine.Request
import SwapPricing.Digest.Blake3
import SwapPricing.Document.Fraction
import SwapPricing.Document.Json
import SwapPricing.Document.Scan
import SwapPricing.Document.Shape
import SwapPricing.Document.Toml
import SwapPricing.Document.Toml.Scalar
import SwapPricing.Document.Toml.Section
import SwapPricing.Document.Value
import SwapPricing.Environment
import SwapPricing.Identifier
import SwapPricing.Instruction
import SwapPricing.Instruction.Cursor
import SwapPricing.Instruction.Encoding
import SwapPricing.Instruction.Listing
import SwapPricing.LittleEndian
import SwapPricing.Machine.Failure
import SwapPricing.Machine.Fees
import SwapPricing.Machine.Guards
import SwapPricing.Machine.Pricing
import SwapPricing.Machine.Reserves
import SwapPricing.Machine.Run
import SwapPricing.Machine.State
import SwapPricing.Machine.Step
import SwapPricing.Machine.Trace
import SwapPricing.Main
import SwapPricing.Opcode
import SwapPricing.Order.Journal
import SwapPricing.Order.Key
import SwapPricing.Order.Snapshot
import SwapPricing.Order.Store
import SwapPricing.Price
import SwapPricing.Program
import SwapPricing.Proofs.Changes
import SwapPricing.Proofs.Rounding
import SwapPricing.Settings
import SwapPricing.Strategy
import SwapPricing.Strategy.Source
import SwapPricing.Table
import SwapPricing.Text.Base58
import SwapPricing.Text.Hex
import SwapPricing.Text.Numeral
import SwapPricing.Text.Timestamp
import SwapPricing.Trade
import SwapPricing.Proofs.Runs
import SwapPricing.Proofs.Unwinding
import SwapPricing.Proofs.ConstantProduct
import SwapPricing.Proofs.Decoding
import SwapPricing.Proofs.Quoting
import SwapPricing.Proofs.StoredBalances
import SwapPricing.Proofs.Offsets
import SwapPricing.Proofs.Prediction
import SwapPricing.Proofs.StraightLine
import SwapPricing.Proofs.CostInverse
import SwapPricing.Proofs.JournalViews
import SwapPricing.Proofs.Positional
import SwapPricing.Proofs.IdentifierText
import SwapPricing.Proofs.JsonText
import SwapPricing.Proofs.Persistence
import SwapPricing.Proofs.Histories
import SwapPricing.Proofs.FillCaps
import SwapPricing.Proofs.Replay
import SwapPricing.Proofs.Isolation
import SwapPricing.Proofs.ReportedFees
import SwapPricing.Proofs.Sales
import SwapPricing.Proofs.Arguments
import SwapPricing.Proofs.Refusals
import SwapPricing.Proofs.Foreseen
import SwapPricing.Proofs.RateBounds
import SwapPricing.Proofs.Payouts
import SwapPricing.Proofs.Layout
import SwapPricing.Proofs.Positions
import SwapPricing.Proofs.FeeBlocks
import SwapPricing.Proofs.Placement
import SwapPricing.Proofs.Drafts
import SwapPricing.Proofs.Salting
import SwapPricing.Proofs.SaltedDrafts
import SwapPricing.Proofs.Statelessness
import SwapPricing.Proofs.SplitTrades
import SwapPricing.Proofs.Assembling
import SwapPricing.Proofs.Renaming
import SwapPricing.Proofs.Mirroring
import SwapPricing.Proofs.Directions
import SwapPricing.Proofs.Sessions
import SwapPricing.Proofs.Listings
import SwapPricing.Proofs.Strategies
import SwapPricing.Proofs.Charges
import SwapPricing.Proofs.DecayingPools
import SwapPricing.Proofs.Recovery
import SwapPricing.Proofs.StepLimits
import SwapPricing.Proofs.ForwardJumps
import SwapPricing.Proofs.Powers
import SwapPricing.Proofs.Monotony
import SwapPricing.Proofs.BetterTrades
import SwapPricing.Proofs.PriceShape
import SwapPricing.Proofs.Roots
import SwapPricing.Proofs.PriceBands
import SwapPricing.Proofs.Revaluation
import SwapPricing.Proofs.RateClamps
import SwapPricing.Proofs.GasCosts
import SwapPricing.Proofs.PowerAccuracy
import SwapPricing.Proofs.Totality
import SwapPricing.Proofs.DecimalPrices
import SwapPricing.Proofs.RootRounds
import SwapPricing.Proofs.RatioAccuracy
import SwapPricing.Proofs.PendingWrites
