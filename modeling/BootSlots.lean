import BootSlots.Geometry
import BootSlots.Text.Number
import BootSlots.Text.Search
import BootSlots.Bytes.Word
import BootSlots.Bytes.Memory
import BootSlots.Settings
import BootSlots.Fault
import BootSlots.Device.Fault
import BootSlots.Log.Level
import BootSlots.Log.Message
import BootSlots.Log.Basic
import BootSlots.Device.Flash
import BootSlots.Device.Scratch
import BootSlots.Device.Work
import BootSlots.Device.Indicator
import BootSlots.Device.Led
import BootSlots.Record.Mode
import BootSlots.Record.Basic
import BootSlots.Record.Codec
import BootSlots.Record.OnFlash
import BootSlots.Record.Store
import BootSlots.Image.Header
import BootSlots.Image.Check
import BootSlots.Image.Writer
import BootSlots.Update.Session
import BootSlots.Update.Engine
import BootSlots.FactoryReset
import BootSlots.Startup
import BootSlots.Board
import BootSlots.Proofs.Device.FlashHistory
import BootSlots.Proofs.Record.Saving
import BootSlots.Proofs.Record.Selection
import BootSlots.Proofs.Image.Stream
import BootSlots.Proofs.Image.Steps
import BootSlots.Proofs.Image.Fills
import BootSlots.Proofs.Record.Regions
import BootSlots.Proofs.Record.Sector
import BootSlots.Proofs.Record.Repair
import BootSlots.Proofs.Record.Settling
import BootSlots.Proofs.Record.ReadBack
import BootSlots.Proofs.Update.Calls
import BootSlots.Proofs.Update.Live
import BootSlots.Proofs.Update.Runs
import BootSlots.Proofs.Update.Confinement
import BootSlots.Proofs.Update.Commit
import BootSlots.Proofs.Update.PowerLoss
import BootSlots.Proofs.Update.Sessions
import BootSlots.Proofs.Board.Calls
import BootSlots.Proofs.Board.Safety
import BootSlots.Proofs.Board.Interleaving
import BootSlots.Proofs.Startup.Reset
import BootSlots.Proofs.Startup.Outcome
import BootSlots.Proofs.Update.Refusals
import BootSlots.Proofs.Update.Turns
import BootSlots.Proofs.Update.Ledger
import BootSlots.Proofs.Update.Lifecycle
import BootSlots.Proofs.Update.Accounting
import BootSlots.Proofs.Update.Acceptance
import BootSlots.Proofs.Device.WorkStates
import BootSlots.Proofs.Startup.ResetOrder
import BootSlots.Proofs.Startup.Restarts
import BootSlots.Proofs.Image.Chunks
import BootSlots.Proofs.Image.Retries
import BootSlots.Proofs.Image.Erasures
import BootSlots.Proofs.Image.Schedule
import BootSlots.Proofs.Update.Operations
import BootSlots.Proofs.Record.Tiling
import BootSlots.Proofs.Record.StoredForm
import BootSlots.Proofs.Device.CheckedNumbers
import BootSlots.Proofs.Image.WordArithmetic
import BootSlots.Proofs.Update.WordArithmetic
import BootSlots.Proofs.Image.Rounds
import BootSlots.Proofs.Log.Ring
import BootSlots.Proofs.Log.Cuts
import BootSlots.Proofs.Device.Attempts
import BootSlots.Proofs.Device.CellHistory
import BootSlots.Proofs.Startup.ResetFlag
import BootSlots.Proofs.Update.Progress
import BootSlots.Proofs.Device.Blinks
