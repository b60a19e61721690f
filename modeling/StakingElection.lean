import StakingElection.ActiveStake
import StakingElection.Analysis.Batch
import StakingElection.Analysis.Mining
import StakingElection.Analysis.Operation
import StakingElection.Analysis.Row
import StakingElection.Binary64
import StakingElection.Binary64.Decimal
import StakingElection.Calendar
import StakingElection.Coefficient
import StakingElection.CommandLine.Arguments
import StakingElection.CommandLine.Grammar
import StakingElection.Csv
import StakingElection.Decode
import StakingElection.Disk
import StakingElection.Dpos
import StakingElection.Election.Balancing
import StakingElection.Election.Feasibility
import StakingElection.Election.Graph
import StakingElection.Election.PhragMms
import StakingElection.Election.Phragmen
import StakingElection.Election.Solver
import StakingElection.Election.Tally
import StakingElection.Failure
import StakingElection.Journal
import StakingElection.Json.Parser
import StakingElection.Json.Printer
import StakingElection.LedgerChecks.Migration
import StakingElection.LedgerChecks.Report
import StakingElection.LedgerChecks.Scan
import StakingElection.Logging.Clock
import StakingElection.Logging.Format
import StakingElection.Logging.Setup
import StakingElection.Logging.Template
import StakingElection.Main
import StakingElection.Node.Client
import StakingElection.Node.Endpoint
import StakingElection.Number
import StakingElection.OrderedMap
import StakingElection.Profile
import StakingElection.Proofs.Analysis.Mining
import StakingElection.Proofs.Election.Accounts
import StakingElection.Proofs.Election.Among
import StakingElection.Proofs.Election.AmongRounds
import StakingElection.Proofs.Election.Balancing
import StakingElection.Proofs.Election.Ballot
import StakingElection.Proofs.Election.BestMove
import StakingElection.Proofs.Election.Cutoff
import StakingElection.Proofs.Election.EarlyStop
import StakingElection.Proofs.Election.Feasible
import StakingElection.Proofs.Election.Funded
import StakingElection.Proofs.Election.Insertion
import StakingElection.Proofs.Election.Irrelevant
import StakingElection.Proofs.Election.LoadSplit
import StakingElection.Proofs.Election.Loads
import StakingElection.Proofs.Election.Mining
import StakingElection.Proofs.Election.Monotone
import StakingElection.Proofs.Election.Optimum
import StakingElection.Proofs.Election.Rebalance
import StakingElection.Proofs.Election.Recount
import StakingElection.Proofs.Election.Refill
import StakingElection.Proofs.Election.Representation
import StakingElection.Proofs.Election.ScoreRounds
import StakingElection.Proofs.Election.Seats
import StakingElection.Proofs.Election.Selection
import StakingElection.Proofs.Election.Stake
import StakingElection.Proofs.Election.VoterGroups
import StakingElection.Proofs.Election.WaterFilling
import StakingElection.Proofs.Journal
import StakingElection.Proofs.LedgerChecks.Report
import StakingElection.Proofs.LedgerChecks.Scan
import StakingElection.Proofs.Score
import StakingElection.Proofs.Sum
import StakingElection.Runner
import StakingElection.Score
import StakingElection.Settings
import StakingElection.Shares
import StakingElection.Snapshot
import StakingElection.State.Basic
import StakingElection.State.Export
import StakingElection.State.Snapshots
import StakingElection.Store
import StakingElection.Store.ArchiveText
import StakingElection.Text.Integer
import StakingElection.Text.Letter
import StakingElection.Text.Printable
import StakingElection.Text.Quoted
import StakingElection.Toml.Number
import StakingElection.Toml.Parser
import StakingElection.Toml.Quoted
import StakingElection.Toml.Table
import StakingElection.Value
import StakingElection.Proofs.LedgerChecks.Migration
import StakingElection.Proofs.ActiveStake
import StakingElection.Proofs.Snapshot
import StakingElection.Proofs.State.Slots
import StakingElection.Proofs.OrderedMap
import StakingElection.Proofs.Shares
import StakingElection.Proofs.Dpos
import StakingElection.Proofs.Outcomes
import StakingElection.Proofs.Legible
import StakingElection.Proofs.Profile
import StakingElection.Proofs.Json.Strings
import StakingElection.Proofs.Json.RoundTrip
import StakingElection.Proofs.Json.Legible
import StakingElection.Proofs.Analysis.Elections
import StakingElection.Proofs.Analysis.Stake
import StakingElection.Proofs.Analysis.Repeat
import StakingElection.Proofs.Analysis.Batch
import StakingElection.Proofs.State.Export
import StakingElection.Proofs.Store
import StakingElection.Proofs.Disk
import StakingElection.Proofs.Runner
import StakingElection.Proofs.Node.Acquisition
import StakingElection.Proofs.Election.Verdict
import StakingElection.Proofs.Election.Committee
import StakingElection.Proofs.Election.Approval
import StakingElection.Proofs.Dpos.Reordering
import StakingElection.Proofs.LedgerChecks.Moves
import StakingElection.Proofs.Election.LoadHistory
import StakingElection.Proofs.ActiveStake.Window
import StakingElection.Proofs.Node.Connecting
import StakingElection.Proofs.Csv.RoundTrip
import StakingElection.Proofs.Tables
import StakingElection.Proofs.Supports
import StakingElection.Proofs.Score.Regrouping
