import Piet.Color.Basic
import Piet.Plane.Position
import Piet.Grid.Scale
import Piet.Grid.Runs
import Piet.Block.Atlas
import Piet.Machine.Basic
import Piet.Walk.Run
import Piet.Paint.Pen
import Piet.Paint.Compose
import Piet.Image.Basic
import Piet.Cli.Session
import Piet.Main
import Piet.Image.Folder
import Piet.Proofs.Block.Region
import Piet.Proofs.Block.Atlas
import Piet.Proofs.Block.Partition
import Piet.Proofs.Block.Mirror
import Piet.Proofs.Paint.Canvas
import Piet.Proofs.Machine.Execute
import Piet.Proofs.Walk.Takes
import Piet.Proofs.Walk.Enter
import Piet.Proofs.Walk.Trail
import Piet.Proofs.Walk.Calls
import Piet.Proofs.Walk.Invariant
import Piet.Proofs.Walk.Limit
import Piet.Proofs.Walk.Mirror
import Piet.Proofs.Walk.Likeness
import Piet.Proofs.Walk.White
import Piet.Proofs.Walk.Stuck
import Piet.Proofs.Walk.Recovery
import Piet.Proofs.Walk.Course
import Piet.Proofs.Walk.Refinement
import Piet.Proofs.Paint.Lay
import Piet.Proofs.Paint.Stroke
import Piet.Proofs.Paint.DeadEnd
import Piet.Proofs.Paint.Close
import Piet.Proofs.Machine.Division
import Piet.Proofs.Paint.Payload
import Piet.Proofs.Paint.Alike
import Piet.Proofs.Paint.Kept
import Piet.Proofs.Paint.Chronicle
import Piet.Proofs.Paint.Layout
import Piet.Proofs.Paint.Lanes
import Piet.Proofs.Paint.Compose
import Piet.Proofs.Paint.Extent
import Piet.Proofs.Paint.Progress
import Piet.Proofs.Paint.Masking
import Piet.Proofs.Machine.Numeral
import Piet.Proofs.Machine.Roll
import Piet.Proofs.Machine.Fault
import Piet.Proofs.Machine.Locality
import Piet.Proofs.Machine.Reading
import Piet.Proofs.Walk.Capacity
import Piet.Proofs.Image.Raster
import Piet.Proofs.Image.Foreign
import Piet.Proofs.Image.Deflate
import Piet.Proofs.Image.Png
import Piet.Proofs.Image.Bmp
import Piet.Proofs.Image.Format
import Piet.Proofs.Grid.Runs
import Piet.Proofs.Grid.Scale
import Piet.Proofs.Grid.Rows
import Piet.Proofs.Cli.Rounds
import Piet.Proofs.Cli.Codel
