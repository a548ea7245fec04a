import FlowFabric.Controller.Events
import FlowFabric.Controller.Migration
import FlowFabric.Controller.Traffic
import FlowFabric.Decimal.Text
import FlowFabric.Proofs.Controller.Agreement
import FlowFabric.Proofs.Controller.Journal
import FlowFabric.Proofs.Controller.Migration
import FlowFabric.Proofs.Controller.Progress
import FlowFabric.Proofs.DataPlane.Conservation
import FlowFabric.Proofs.DataPlane.Fixpoint
import FlowFabric.Proofs.Network.LoopFreedom
import FlowFabric.Proofs.Quantity.Bandwidth
import FlowFabric.Quantity.Exact
import FlowFabric.Settings.Text
import FlowFabric.Proofs.Routing.Reachability
import FlowFabric.Proofs.Channel.Supply
import FlowFabric.Proofs.Queue.Predictions
import FlowFabric.Proofs.DataPlane.Predictions
import FlowFabric.Proofs.Controller.Schedule
import FlowFabric.Proofs.Controller.Requests
import FlowFabric.Proofs.Network.Adaptation
import FlowFabric.Proofs.Network.Attempts
import FlowFabric.Proofs.Network.Recovery
import FlowFabric.Proofs.Network.FatTree
import FlowFabric.Proofs.Network.InterCloud
import FlowFabric.Proofs.Network.Removal
import FlowFabric.Proofs.Network.Placement
import FlowFabric.Proofs.Queue.Flushes
import FlowFabric.Proofs.Queue.Rounds
import FlowFabric.Proofs.Queue.Histories
import FlowFabric.Proofs.Queue.Deadlines
import FlowFabric.Proofs.Queue.Estimates
import FlowFabric.Proofs.DataPlane.OwnLoad
import FlowFabric.Proofs.Registry.Names
import FlowFabric.Proofs.DataPlane.EqualShares
import FlowFabric.Proofs.Network.Construction
import FlowFabric.Proofs.Controller.Latency
import FlowFabric.Proofs.Queue.Passes
import FlowFabric.Proofs.Topology.Pods
import FlowFabric.Proofs.DataPlane.Samples
