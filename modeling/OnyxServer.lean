import OnyxServer.Delivery.HeadOfLine
import OnyxServer.AcceptedLog.WireImage
import OnyxServer.Store.FailedMutations
import OnyxServer.AcceptedLog.Fairness
import OnyxServer.Relay.Transcript
import OnyxServer.ReplayGuard.ExactlyOnce
import OnyxServer.ReplayGuard.OrderIndependence
import OnyxServer.OperGrant.Freshness
import OnyxServer.S2s.Chunking
import OnyxServer.Access.OriginProofs
import OnyxServer.Access.Convergence
import OnyxServer.Undertow.FactConvergence
import OnyxServer.Undertow.ClaimRuns
import OnyxServer.Undertow.UniqueRows
import OnyxServer.Undertow.SweptRoutes
import OnyxServer.Undertow.MeshClock
import OnyxServer.SendQ.BoundedFifo
import OnyxServer.WebSocket.Capacity
import OnyxServer.SessionReplica.Convergence
import OnyxServer.SessionReplica.Resurrection
import OnyxServer.SessionReplica.Upgrade
import OnyxServer.Access.MergeCopy
import OnyxServer.Store.BatchCodec
import OnyxServer.Store.TableRefinement
import OnyxServer.Lotus.ExactOnce
import OnyxServer.Lotus.Paging
import OnyxServer.Outbox.Paging
import OnyxServer.AntiEntropy.Exactness
import OnyxServer.Delta.RoundTrip
import OnyxServer.Delta.Joins
import OnyxServer.Delta.MemberPayload
import OnyxServer.Text.GlobLanguage
import OnyxServer.Chanmode.Snapshot
import OnyxServer.IrcLine.Language
import OnyxServer.ChatWorld.Frame
import OnyxServer.ChatWorld.Throttle
import OnyxServer.PersistentMap.Snapshots
import OnyxServer.SessionReplica.RetainedPages
