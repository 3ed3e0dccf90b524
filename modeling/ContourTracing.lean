import ContourTracing.Brackets
import ContourTracing.Buffer
import ContourTracing.Connectivity
import ContourTracing.Context
import ContourTracing.Contour
import ContourTracing.ContourLine
import ContourTracing.Decimal.Binary
import ContourTracing.Decimal.Norm
import ContourTracing.Decimal.Reading
import ContourTracing.Decimal.Report
import ContourTracing.Decimal.Rounding
import ContourTracing.Decimal.Shortest
import ContourTracing.Description
import ContourTracing.Fault
import ContourTracing.GivenPoints
import ContourTracing.Interval
import ContourTracing.Layer
import ContourTracing.Length
import ContourTracing.Making
import ContourTracing.Mask
import ContourTracing.Matrix.Basic
import ContourTracing.Matrix.Form
import ContourTracing.Matrix.Nested
import ContourTracing.Matrix.Read
import ContourTracing.Neighbours
import ContourTracing.Number
import ContourTracing.Operation
import ContourTracing.OutsidePolicy
import ContourTracing.Polyline
import ContourTracing.Position
import ContourTracing.Proofs.AllBoundaries
import ContourTracing.Proofs.Area
import ContourTracing.Proofs.ArraySearch
import ContourTracing.Proofs.CheckedAccess
import ContourTracing.Proofs.CheckedBuffers
import ContourTracing.Proofs.CheckedTracer
import ContourTracing.Proofs.Circuit
import ContourTracing.Proofs.ClosedPolyline
import ContourTracing.Proofs.ClosedWalk
import ContourTracing.Proofs.ContourArea
import ContourTracing.Proofs.ContourLength
import ContourTracing.Proofs.CornerContact
import ContourTracing.Proofs.Coverage
import ContourTracing.Proofs.Depth
import ContourTracing.Proofs.Duality
import ContourTracing.Proofs.Enclosed
import ContourTracing.Proofs.Exhaustion
import ContourTracing.Proofs.Exterior
import ContourTracing.Proofs.FilledBuffer
import ContourTracing.Proofs.Filling
import ContourTracing.Proofs.Fresh
import ContourTracing.Proofs.LayerCounters
import ContourTracing.Proofs.MainBoundaries
import ContourTracing.Proofs.Modes
import ContourTracing.Proofs.Padding
import ContourTracing.Proofs.PlainSession
import ContourTracing.Proofs.Plane
import ContourTracing.Proofs.Raster
import ContourTracing.Proofs.Reachable
import ContourTracing.Proofs.ReadSettings
import ContourTracing.Proofs.Record
import ContourTracing.Proofs.Refilling
import ContourTracing.Proofs.Region
import ContourTracing.Proofs.Rejection
import ContourTracing.Proofs.ResumedScan
import ContourTracing.Proofs.RotatedScan
import ContourTracing.Proofs.RunEdges
import ContourTracing.Proofs.SameMarks
import ContourTracing.Proofs.ScanSteps
import ContourTracing.Proofs.SearchFinds
import ContourTracing.Proofs.SearchProgress
import ContourTracing.Proofs.SearchRounds
import ContourTracing.Proofs.SegmentContour
import ContourTracing.Proofs.SharedObject
import ContourTracing.Proofs.Shoelace
import ContourTracing.Proofs.SoundTracer
import ContourTracing.Proofs.Start
import ContourTracing.Proofs.StepVertex
import ContourTracing.Proofs.Tour
import ContourTracing.Proofs.TracedPoints
import ContourTracing.Proofs.TracedScan
import ContourTracing.Proofs.Translation
import ContourTracing.Proofs.Transparency
import ContourTracing.Proofs.Turning
import ContourTracing.Proofs.Winding
import ContourTracing.Proofs.WrappedSession
import ContourTracing.Scan
import ContourTracing.ScanMode
import ContourTracing.Search
import ContourTracing.Session.Basic
import ContourTracing.Session.Command
import ContourTracing.Session.Object
import ContourTracing.Settings
import ContourTracing.Shape
import ContourTracing.Side
import ContourTracing.Status
import ContourTracing.Step
import ContourTracing.Survey
import ContourTracing.Tally
import ContourTracing.Text.Blank
import ContourTracing.Text.Digit
import ContourTracing.Text.LetterCase
import ContourTracing.Text.Printable
import ContourTracing.Text.Quoted
import ContourTracing.Tracer.Basic
import ContourTracing.Tracer.NextBoundary
import ContourTracing.Transition
import ContourTracing.Value
import ContourTracing.Walk
