import ConferenceMix.AudioBridge.Basic
import ConferenceMix.Pcm.Generator
import ConferenceMix.Picture.Bars
import ConferenceMix.VideoWall.Basic
import ConferenceMix.Proofs.Playout.Bytes
import ConferenceMix.Proofs.Playout.Fifo
import ConferenceMix.Proofs.Playout.Order
import ConferenceMix.Proofs.Playout.Cap
import ConferenceMix.Proofs.Playout.Accounts
import ConferenceMix.Proofs.Playout.Arrivals
import ConferenceMix.Proofs.Playout.Reordering
import ConferenceMix.Proofs.Playout.Memory
import ConferenceMix.Proofs.Playout.Padding
import ConferenceMix.Proofs.Playout.Reading
import ConferenceMix.Proofs.Playout.Pacing
import ConferenceMix.Proofs.Session.Floor
import ConferenceMix.Proofs.Picture.Brush
import ConferenceMix.Proofs.Session.History
import ConferenceMix.Proofs.Punctuality
import ConferenceMix.Proofs.VideoWall.Redraw
import ConferenceMix.Proofs.VideoWall.Rows
import ConferenceMix.Proofs.VideoWall.Grid
import ConferenceMix.Proofs.VideoWall.Tiles
import ConferenceMix.Proofs.Picture.Pixels
import ConferenceMix.Proofs.VideoWall.Composite
import ConferenceMix.Proofs.AudioBridge.Parts
import ConferenceMix.Proofs.AudioBridge.Supply
import ConferenceMix.Proofs.AudioBridge.Mixes
import ConferenceMix.Proofs.AudioBridge.NoEcho
import ConferenceMix.Proofs.AudioBridge.Shortfall
import ConferenceMix.Proofs.Session.Reports
import ConferenceMix.Proofs.Session.Cadence
import ConferenceMix.Proofs.Session.Twins
import ConferenceMix.Proofs.Session.Deeds
import ConferenceMix.Proofs.Session.Deliveries
import ConferenceMix.Proofs.Session.Refusals
import ConferenceMix.Proofs.Delivery
import ConferenceMix.Proofs.AudioBridge.Ledger
import ConferenceMix.Proofs.AudioBridge.Seams
import ConferenceMix.Proofs.Session.Moves
import ConferenceMix.Proofs.Session.Elapse
import ConferenceMix.Proofs.Session.Deposits
import ConferenceMix.Proofs.Session.Stopping
import ConferenceMix.Proofs.Finality
import ConferenceMix.Proofs.Acceptance
import ConferenceMix.Proofs.Producers
import ConferenceMix.Proofs.VideoWall.Reforms
import ConferenceMix.Proofs.VideoWall.Mirror
import ConferenceMix.Proofs.VideoWall.Peak
import ConferenceMix.Proofs.Session.Abreast
import ConferenceMix.Proofs.VideoWall.Focus
import ConferenceMix.Proofs.VideoWall.Rejections
import ConferenceMix.Proofs.Session.Mailboxes
import ConferenceMix.Proofs.Session.Channels
import ConferenceMix.Proofs.Conveyance
import ConferenceMix.Proofs.Pcm.Headroom
import ConferenceMix.Proofs.Picture.Rendering
import ConferenceMix.Proofs.Picture.Filling
import ConferenceMix.Proofs.Picture.Places
import ConferenceMix.Proofs.Picture.Copying
import ConferenceMix.Proofs.Playout.Drift
import ConferenceMix.Proofs.Pcm.Coding
import ConferenceMix.Proofs.Pcm.Handing
