import PBase.Arena.Model
import PBase.Arena.Unique
import PBase.Arena.Address
import PBase.Buffer.Lending
import PBase.Buffer.Forms
import PBase.Buffer.Front
import PBase.Buffer.Append
import PBase.Buffer.Progress
import PBase.Buffer.Dump
import PBase.Buffer.Self
import PBase.Buffer.Push
import PBase.Buffer.Concat
import PBase.Buffer.Reading
import PBase.Buffer.Destroy
import PBase.Buffer.Sharing
import PBase.Buffer.Queues
import PBase.Stack.Linearize
import PBase.Pool.Partition
import PBase.Pool.Composed
import PBase.Pool.Backed
import PBase.Logger.Order
import PBase.Logger.Zone
import PBase.Logger.Bounds
import PBase.Logger.Fit
import PBase.Logger.Number
import PBase.Logger.Pipeline
import PBase.LinkedList.Order
import PBase.TimerControl.Sleep
import PBase.TimerControl.Stop
import PBase.TimerControl.Clock
import PBase.TimerControl.Answer
import PBase.TimerControl.Pass
import PBase.TimerControl.Destroy
import PBase.TimerControl.Pooled
import PBase.Socket.Ownership
import PBase.Socket.Promise
import PBase.Queue.Order
import PBase.EndPoint.Node
import PBase.EndPoint.Format
import PBase.Text.Growth
import PBase.Text.Printf
import PBase.Text.Fixed
import PBase.Rand.Uniform
import PBase.Rand.Period
import PBase.Memory.Disjoint
import PBase.Memory.Space
import PBase.Autovector.Lists
